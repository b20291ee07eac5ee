import Mathlib
import NaiveOs.Fs.File
import NaiveOs.Mm.MemorySet

/-!
# Processes, open files and descriptors (`task/mod.rs`)

The kernel shares inodes and open files through `Arc<Mutex<_>>`: a descriptor table holds
`Arc<Mutex<OpenFile>>`s, several descriptors (and, after `fork`, several processes) may hold the
same one, and an `OpenFile` and the dentry cache hold `Arc<Mutex<dyn INode>>`s. The model keeps
one table of inodes and one of open files in the kernel state, and a shared reference is an
index into them: `Arc::new(Mutex::new(x))` appends `x` and returns its index, and `clone` of
an `Arc` copies the index.

`Kernel` is the state a system call runs on: the machine (memory and frame allocator), the
two tables, `GLOBAL_DENTRY_CACHE`, the console, `PID_ALLOCATOR`, `KERNEL_SPACE`, the processes
spawned so far, and the `PCB` of the calling process.
-/

namespace NaiveOs

/-- `OpenFile`: `inode` indexes `Kernel.inodes`. -/
structure OpenFile where
  offset : Nat
  statusFlags : Nat
  readable : Bool
  writable : Bool
  inode : Nat
  deriving DecidableEq, Repr

namespace OpenFile

/-- `OpenFile::new_from_inode`. -/
def newFromInode (readable writable : Bool) (inode : Nat) : OpenFile :=
  ⟨0, 0, readable, writable, inode⟩

/-- `OpenFile::set_close_on_exec`: the flag is the whole of `status_flags`. -/
def setCloseOnExec (f : OpenFile) (flag : Bool) : OpenFile :=
  { f with statusFlags := if flag then 1 else 0 }

end OpenFile

/-- `FdManager`: descriptor `fd` is `fdArray[fd]`, an index into `Kernel.openFiles`. -/
structure FdManager where
  fdArray : List Nat
  deriving DecidableEq, Repr

/-- `PCB`: the fields the modelled system calls use. -/
structure PCB where
  pid : Nat
  trapframePpn : PhysPageNum
  memorySet : MemorySet
  heapPos : VirtAddr
  mmapPos : VirtAddr
  cwd : String
  fdManager : FdManager
  /-- The pids of `children.alive`. -/
  children : List Nat

/-- The state a system call runs on. -/
structure Kernel where
  machine : Machine
  inodes : List INode
  openFiles : List OpenFile
  /-- `GLOBAL_DENTRY_CACHE`: absolute paths to inodes. -/
  dentryCache : List (String × Nat)
  /-- The bytes `console_getchar` will return. -/
  stdin : List UInt8
  /-- The bytes printed so far. -/
  stdout : List UInt8
  /-- `PID_ALLOCATOR.pid_top`. -/
  pidTop : Nat
  /-- `KERNEL_SPACE`. -/
  kernelSpace : MemorySet
  /-- The processes `sys_clone` spawned, in order. -/
  procs : List PCB
  /-- The calling process. -/
  pcb : PCB

namespace Kernel

/-- Run a computation on the machine alone. -/
def onMachine {α : Type} (x : KernelM Machine α) : KernelM Kernel α := fun k => do
  let (a, m) ← x.run k.machine
  pure (a, { k with machine := m })

/-- A machine computation that returns runs on the kernel's machine. -/
theorem onMachine_run {α : Type} {x : KernelM Machine α} {k : Kernel} {a : α} {m : Machine}
    (h : x.run k.machine = .ok (a, m)) :
    (onMachine x).run k = .ok (a, { k with machine := m }) := by
  show (do let (a, m) ← x.run k.machine; pure (a, { k with machine := m })) = _
  rw [h]
  rfl

/-- A kernel computation on the machine that returns ran the machine computation to the end. -/
theorem onMachine_eq_ok {α : Type} {x : KernelM Machine α} {k k' : Kernel} {a : α}
    (h : (onMachine x).run k = .ok (a, k')) :
    ∃ m, x.run k.machine = .ok (a, m) ∧ k' = { k with machine := m } := by
  cases hx : x.run k.machine with
  | error e =>
    rw [show (onMachine x).run k = .error e by
      show (do let (a, m) ← x.run k.machine; pure (a, { k with machine := m })) = _
      rw [hx]
      rfl] at h
    cases h
  | ok p =>
    rw [onMachine_run hx] at h
    cases h
    exact ⟨p.2, rfl, rfl⟩

/-- A machine computation that returns keeps every part of the kernel but the machine. -/
theorem onMachine_returns {α : Type} {P : Machine → Prop} {x : KernelM Machine α}
    {Q : α → Machine → Prop} (h : Returns P x Q) (F : Kernel → Prop)
    (hF : ∀ k m, F k → F { k with machine := m }) :
    Returns (fun k => P k.machine ∧ F k) (onMachine x) fun a k => Q a k.machine ∧ F k := by
  rintro k a k' ⟨hP, hk⟩ hrun
  cases hx : x.run k.machine with
  | error e =>
    rw [show (onMachine x).run k = .error e by
      show (do let (a, m) ← x.run k.machine; pure (a, { k with machine := m })) = _
      rw [hx]
      rfl] at hrun
    cases hrun
  | ok p =>
    rw [onMachine_run hx] at hrun
    cases hrun
    exact ⟨h _ _ _ hP hx, hF _ _ hk⟩

/-- A machine update, seen from the kernel. -/
theorem onMachine_modify_run (f : Machine → Machine) (k : Kernel) :
    (onMachine (modify f)).run k = .ok ((), { k with machine := f k.machine }) := rfl

/-- Update the calling process. -/
def modifyPcb (f : PCB → PCB) : KernelM Kernel Unit :=
  modify fun k => { k with pcb := f k.pcb }

/-- `Arc::new(Mutex::new(inode))`. -/
def newInode (i : INode) : KernelM Kernel Nat := do
  let k ← get
  set { k with inodes := k.inodes ++ [i] }
  pure k.inodes.length

/-- `Arc::new(Mutex::new(open_file))`. -/
def newOpenFile (f : OpenFile) : KernelM Kernel Nat := do
  let k ← get
  set { k with openFiles := k.openFiles ++ [f] }
  pure k.openFiles.length

/-- `lock()` on a shared open file. -/
def openFile (id : Nat) : KernelM Kernel OpenFile := do
  index (← get).openFiles id

/-- Write back a shared open file. -/
def setOpenFile (id : Nat) (f : OpenFile) : KernelM Kernel Unit :=
  modify fun k => { k with openFiles := k.openFiles.set id f }

/-- `lock()` on a shared inode. -/
def inode (id : Nat) : KernelM Kernel INode := do
  index (← get).inodes id

/-- Write back a shared inode. -/
def setInode (id : Nat) (i : INode) : KernelM Kernel Unit :=
  modify fun k => { k with inodes := k.inodes.set id i }

/-- `console_getchar() as u8`: the next input byte, `0xff` (`-1 as u8`) when there is none. -/
def consoleGetchar : KernelM Kernel UInt8 := do
  let k ← get
  match k.stdin with
  | c :: rest => set { k with stdin := rest }; pure c
  | [] => pure 0xff

/-- `print!`. -/
def print (bytes : List UInt8) : KernelM Kernel Unit :=
  modify fun k => { k with stdout := k.stdout ++ bytes }

/-- `GlobalDentryCache::get`. -/
def dentryGet (path : String) : KernelM Kernel (Option Nat) := do
  pure ((← get).dentryCache.lookup path)

/-- `GlobalDentryCache::insert`: a path already present is rebound. -/
def dentryInsert (path : String) (inode : Nat) : KernelM Kernel Unit :=
  modify fun k => { k with dentryCache := (path, inode) :: k.dentryCache.filter (·.1 ≠ path) }

/-- `PidAllocator::alloc_pid`. -/
def allocPid : KernelM Kernel Nat := do
  let k ← get
  set { k with pidTop := k.pidTop + 1 }
  pure k.pidTop

theorem allocPid_run (k : Kernel) :
    allocPid.run k = .ok (k.pidTop, { k with pidTop := k.pidTop + 1 }) := rfl

end Kernel

namespace OpenFile

/-- `OpenFile::new`: readable, writable, on a fresh empty regular file. -/
def new : KernelM Kernel Nat := do
  let inode ← Kernel.newInode (.regFile (RegFileINode.new true true))
  Kernel.newOpenFile (newFromInode true true inode)

/-- `OpenFile::new_stdin`, `new_stdout`, `new_stderr`. -/
def newTerminal (readable writable : Bool) (t : TerminalINode) : KernelM Kernel Nat := do
  let inode ← Kernel.newInode (.terminal t)
  Kernel.newOpenFile (newFromInode readable writable inode)

end OpenFile

namespace FdManager

/-- `FdManager::new`: descriptors 0, 1 and 2 on the console. -/
def new : KernelM Kernel FdManager := do
  let stdin ← OpenFile.newTerminal true false TerminalINode.newStdin
  let stdout ← OpenFile.newTerminal false true TerminalINode.newStdout
  let stderr ← OpenFile.newTerminal false true TerminalINode.newStderr
  pure ⟨[stdin, stdout, stderr]⟩

/-- `FdManager::len`. -/
def len (fm : FdManager) : Nat := fm.fdArray.length

/-- `FdManager::push`: the new descriptor is the last index. -/
def push (fm : FdManager) (openFile : Nat) : FdManager × Nat :=
  (⟨fm.fdArray ++ [openFile]⟩, fm.fdArray.length)

/-- `fd_array[fd] = x`: the index is bounds-checked. -/
def setFd (fm : FdManager) (fd : Nat) (openFile : Nat) : Except Panic FdManager :=
  if fd < fm.fdArray.length then .ok ⟨fm.fdArray.set fd openFile⟩
  else .error (.indexOutOfBounds fd fm.fdArray.length)

/-- `FdManager::close`: the descriptor is not removed but pointed at a fresh `OpenFile::new()`
(the right-hand side is built before the index is checked). -/
def close (fm : FdManager) (fd : Nat) : KernelM Kernel FdManager := do
  let f ← OpenFile.new
  fm.setFd fd f

/-- One iteration of the loop of `FdManager::close_on_exec`. -/
def closeOnExecStep (fm : FdManager) (i : Nat) : KernelM Kernel FdManager := do
  let f ← Kernel.openFile (← index fm.fdArray i)
  if f.statusFlags = 1 then
    let g ← OpenFile.new
    fm.setFd i g
  else pure fm

/-- `FdManager::close_on_exec`: every descriptor whose open file has `status_flags == 1` is
closed. -/
def closeOnExec (fm : FdManager) : KernelM Kernel FdManager :=
  (List.range fm.len).foldlM closeOnExecStep fm

/-- `FdManager::dup`: `get(fd).unwrap()` panics on a descriptor out of range. -/
def dup (fm : FdManager) (fd : Nat) : KernelM Kernel (FdManager × Nat) := do
  let f ← unwrap fm.fdArray[fd]?
  pure (fm.push f)

/-- The `while` loop of `FdManager::dup3`: fresh open files until the table has `newFd`
entries. -/
def padTo (newFd : Nat) : Nat → FdManager → KernelM Kernel FdManager
  | 0, fm => pure fm
  | fuel + 1, fm => do
    if fm.len < newFd then
      let f ← OpenFile.new
      padTo newFd fuel (fm.push f).1
    else pure fm

/-- `FdManager::dup3`: the table is padded to `new_fd` entries, then `fd_array[new_fd]`
is assigned, which panics when the padding stopped exactly at `new_fd`. -/
def dup3 (fm : FdManager) (fd newFd : Nat) : KernelM Kernel (FdManager × Nat) := do
  let f ← unwrap fm.fdArray[fd]?
  let fm ← padTo newFd (newFd - fm.len) fm
  let fm ← fm.setFd newFd f
  pure (fm, newFd)

end FdManager

namespace PCB

/-- `PCB::new`. -/
def new : KernelM Kernel PCB := do
  let ms ← Kernel.onMachine MemorySet.newBare
  let fm ← FdManager.new
  pure ⟨0, ⟨0⟩, ms, ⟨0⟩, ⟨0⟩, "/", fm, []⟩

/-- `PCB::new` makes a bare space on the machine and three console files; the rest of the
kernel is unchanged. -/
theorem new_run {k : Kernel} {ms : MemorySet} {m : Machine}
    (h : MemorySet.newBare.run k.machine = .ok (ms, m)) :
    ∃ fm k', PCB.new.run k = .ok (⟨0, ⟨0⟩, ms, ⟨0⟩, ⟨0⟩, "/", fm, []⟩, k') ∧ k'.machine = m ∧
      k'.pidTop = k.pidTop ∧ k'.kernelSpace = k.kernelSpace ∧ k'.procs = k.procs ∧
      k'.pcb = k.pcb := by
  rw [PCB.new, StateT.run_bind_of_ok (Kernel.onMachine_run h)]
  exact ⟨_, _, rfl, rfl, rfl, rfl, rfl, rfl⟩

end PCB

end NaiveOs
