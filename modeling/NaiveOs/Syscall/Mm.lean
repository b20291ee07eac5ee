import Mathlib
import NaiveOs.Task.Basic
import NaiveOs.Mm.ElfLoad

/-!
# Memory and descriptor system calls (`syscall/mm.rs`)

`sys_brk` grows the heap by pushing a `Framed` area from the current break to the new one,
`sys_mmap` pushes an area at the mmap position (anonymous, or holding the bytes of an open
file), `sys_fcntl` sets close-on-exec, and `sys_lseek` moves a file offset.

`sys_brk` keeps the break unaligned (`heap_pos.0 = _brk`) and builds each new area from it,
so two growths inside one page map that page twice, and the second reaches the
"mapped before mapping" assertion of `PageTable::map` (`sysBrk_maps_page_twice`);
`sys_mmap` aligns its position with `ceil_align` first. A growth that does return maps the
pages from the old break to the new one to zeroed frames and keeps the space well formed
(`sysBrk_grows`).
-/

namespace NaiveOs

namespace Thread

/-- The permission of heap and mmap areas. -/
def userRW : MapPermission := MapPermission.R ||| MapPermission.W ||| MapPermission.U

/-- `Thread::sys_brk`. A request below the break reaches `panic!("shrink.")`. -/
def sysBrk (brk : Nat) : KernelM Kernel Int := do
  let pcb := (← get).pcb
  let end_ := pcb.heapPos.toUsize
  if brk = 0 then return toIsize end_
  if end_ = brk then return 0
  else if end_ < brk then
    let area ← MapArea.new (VirtAddr.ofUsize end_) (VirtAddr.ofUsize brk) .framed userRW
    let ms ← Kernel.onMachine (pcb.memorySet.push area none)
    Kernel.modifyPcb fun p => { p with memorySet := ms, heapPos := ⟨brk⟩ }
    return toIsize brk
  else throw .shrink

/-- Growing the break twice inside one page panics. A process built from an ELF with one
`PT_LOAD` segment `[0x1000, 0x2000)` (no file bytes) has its break at `0x2000`, as
`crate_task_from_elf` sets it. `sys_brk(0x2001)` maps page 2 and leaves the break at `0x2001`;
`sys_brk(0x2002)` builds the area `[0x2001, 0x2002)`, whose range is page 2 again, and
`PageTable::map` asserts that page 2 is not mapped yet. -/
theorem sysBrk_maps_page_twice :
    (do
      let (ms, heap, _, _) ← Kernel.onMachine (MemorySet.fromElf 0x80200000
        ⟨[0x7f, 0x45, 0x4c, 0x46], 0x1000, [⟨true, 0x1000, 0x1000, 0, 0, true, false, true⟩], []⟩)
      Kernel.modifyPcb fun p =>
        { p with memorySet := ms, heapPos := VirtAddr.ofUsize heap,
                 mmapPos := VirtAddr.ofUsize 0x100000000 }
      let r1 ← sysBrk (heap + 1)
      let r2 ← sysBrk (heap + 2)
      pure (heap, r1, r2) : KernelM Kernel (Nat × Int × Int)).run'
      ⟨⟨fun _ => 0, StackFrameAllocator.new.init ⟨0x80000⟩ ⟨0x88000⟩⟩, [], [], [], [], [], 0,
        ⟨⟨⟨0⟩, []⟩, []⟩, [], ⟨0, ⟨0⟩, ⟨⟨⟨0⟩, []⟩, []⟩, ⟨0⟩, ⟨0⟩, "/", ⟨[]⟩, []⟩⟩ =
      .error (.mappedBeforeMapping 2) := by
  decide +kernel

/-! ## Runs from a bare user space -/

/-- A kernel whose process has the space `ms` on the machine `m`, with its break and mmap
position at 0, and the given inodes, open files and descriptors. -/
def bareKernel (m : Machine) (ms : MemorySet) (inodes : List INode) (openFiles : List OpenFile)
    (fds : List Nat) : Kernel :=
  ⟨m, inodes, openFiles, [], [], [], 0, ⟨⟨⟨0⟩, []⟩, []⟩, [],
    ⟨0, ⟨0⟩, ms, ⟨0⟩, ⟨0⟩, "/", ⟨fds⟩, []⟩⟩

/-- A system call made after loading a bare user space on the sample machine: when the whole
run returns, the load returns a space and the call returns from the kernel holding it. -/
theorem bareKernel_returns {α : Type} (x : KernelM Kernel α) (inodes : List INode)
    (openFiles : List OpenFile) (fds : List Nat)
    (hok : ((do
      let ms ← Kernel.onMachine (MemorySet.newBare >>= fun ms => ms.mapTrampoline 0x80200000)
      Kernel.modifyPcb fun p => { p with memorySet := ms }
      x).run (bareKernel MemorySet.sampleMachine ⟨⟨⟨0⟩, []⟩, []⟩ inodes openFiles fds)).isOk =
        true) :
    ∃ ms m' a k', (MemorySet.newBare >>= fun ms => ms.mapTrampoline 0x80200000).run
        MemorySet.sampleMachine = .ok (ms, m') ∧
      x.run (bareKernel m' ms inodes openFiles fds) = .ok (a, k') := by
  obtain ⟨p, hrun⟩ := Except.exists_eq_ok_of_isOk hok
  obtain ⟨ms, k₁, h₁, h₂⟩ := StateT.run_bind_eq_ok hrun
  obtain ⟨m', hm, rfl⟩ := Kernel.onMachine_eq_ok h₁
  obtain ⟨_, k₂, h₃, h₄⟩ := StateT.run_bind_eq_ok h₂
  cases h₃
  exact ⟨ms, m', p.1, p.2, hm, h₄⟩

/-! ## Growing the break -/

/-- The area `sys_brk` and `sys_mmap` push for `[lo, hi)`: the pages from the one of `lo` to the
one after `hi - 1`. -/
theorem userRWArea_new {lo hi : Nat} (hle : lo ≤ hi) (hhi : hi < 2 ^ 38) :
    MapArea.new (VirtAddr.ofUsize lo) (VirtAddr.ofUsize hi) .framed userRW =
      .ok ⟨⟨⟨lo / 4096⟩, ⟨(hi + 4095) / 4096⟩, by dsimp only; omega⟩, [], .framed, userRW⟩ := by
  have hv : ∀ x, x < 2 ^ 39 → (VirtAddr.ofUsize x).val = x := fun x hx => by
    rw [VirtAddr.ofUsize_val, Nat.mod_eq_of_lt hx]
  have hfloor : (VirtAddr.ofUsize lo).floor = ⟨lo / 4096⟩ := by
    simp only [VirtAddr.floor, hv lo (by omega), pageSize]
  have hceil : (VirtAddr.ofUsize hi).ceil = ⟨(hi + 4095) / 4096⟩ := by
    have hc := VirtAddr.ceil_val (v := VirtAddr.ofUsize hi) (by rw [hv hi (by omega)]; omega)
    rw [hv hi (by omega)] at hc
    rw [← hc]
  rw [MapArea.new, VPNRange.new, hfloor, hceil,
    dif_pos (show lo / 4096 ≤ (hi + 4095) / 4096 by omega)]
  rfl

/-- A request above the break pushes that area with no data and moves the break. -/
theorem sysBrk_run_grow {k : Kernel} {brk : Nat} (hheap : k.pcb.heapPos.val < brk)
    (hbrk : brk < 2 ^ 38) :
    (sysBrk brk).run k = (do
      let ms ← Kernel.onMachine (k.pcb.memorySet.push ⟨⟨⟨k.pcb.heapPos.val / 4096⟩,
        ⟨(brk + 4095) / 4096⟩, by dsimp only; omega⟩, [], .framed, userRW⟩ none)
      Kernel.modifyPcb fun p => { p with memorySet := ms, heapPos := ⟨brk⟩ }
      return toIsize brk : KernelM Kernel Int).run k := by
  have hE : k.pcb.heapPos.toUsize = k.pcb.heapPos.val := VirtAddr.toUsize_of_lt (by omega)
  simp [sysBrk, hE, show brk ≠ 0 by omega, show k.pcb.heapPos.val ≠ brk by omega, hheap,
    userRWArea_new hheap.le hbrk]

/-- **Growing the break.** A run of `sys_brk(brk)` above the break (`brk < 2 ^ 38`) from a user
space that returns gives `brk` and moves the break there; the space is a user space again on the
same table and keeps what it mapped, with the bytes; and every byte from the old break to `brk`
is on a page mapped `R | W | U` to a frame that holds zero there. -/
theorem sysBrk_grows {strampoline : Nat} {k k' : Kernel} {brk : Nat} {r : Int}
    (hwf : k.pcb.memorySet.UserWF strampoline k.machine) (hheap : k.pcb.heapPos.val < brk)
    (hbrk : brk < 2 ^ 38) (h : (sysBrk brk).run k = .ok (r, k')) :
    r = brk ∧ k'.pcb.heapPos = ⟨brk⟩ ∧ k'.pcb.memorySet.UserWF strampoline k'.machine ∧
      k'.pcb.memorySet.pageTable.rootPpn = k.pcb.memorySet.pageTable.rootPpn ∧
      Keeps k.pcb.memorySet.pageTable.rootPpn k.machine k'.machine ∧
      ∀ a, k.pcb.heapPos.val ≤ a → a < brk → ∃ f,
        PageTable.lookup k'.machine.mem k.pcb.memorySet.pageTable.rootPpn ⟨a / 4096⟩ =
          some (f, ⟨userRW.bits⟩ ||| PTEFlags.V) ∧ k'.machine.mem (f.val * 4096 + a % 4096) = 0 := by
  rw [sysBrk_run_grow hheap hbrk] at h
  obtain ⟨ms', k₁, h₁, h⟩ := StateT.run_bind_eq_ok h
  obtain ⟨m', hpush, rfl⟩ := Kernel.onMachine_eq_ok h₁
  simp only [Kernel.modifyPcb] at h
  cases h
  obtain ⟨hroot, hwf', hk, hpages⟩ := MemorySet.push_pages hwf rfl rfl (by dsimp only; omega)
    (fun d hd => by cases hd) hpush
  refine ⟨by simp [toIsize]; omega, rfl, hwf', hroot, hk, fun a ha hab => ?_⟩
  -- the page of `a` is one of the new area's, which hold no data
  obtain ⟨f, hf, hz⟩ := hpages ⟨a / 4096⟩
    (VPNRange.mem_toList.mpr ⟨by dsimp only; omega, by dsimp only; omega⟩)
  refine ⟨f, hf, ?_⟩
  rw [hz _ (Nat.mod_lt _ (by norm_num))]
  simp

/-- `sysBrk_grows` from the bare space: pages 0 and 1 are mapped to zeroed frames. -/
theorem sysBrk_grows_from_bare :
    ∃ ms m' r k', (sysBrk 0x1800).run (bareKernel m' ms [] [] []) = .ok (r, k') ∧
      r = 0x1800 ∧ k'.pcb.heapPos = ⟨0x1800⟩ ∧ k'.pcb.memorySet.UserWF 0x80200000 k'.machine ∧
      k'.pcb.memorySet.pageTable.rootPpn = ms.pageTable.rootPpn ∧
      Keeps ms.pageTable.rootPpn m' k'.machine ∧
      ∀ a, 0 ≤ a → a < 0x1800 → ∃ f,
        PageTable.lookup k'.machine.mem ms.pageTable.rootPpn ⟨a / 4096⟩ =
          some (f, ⟨userRW.bits⟩ ||| PTEFlags.V) ∧ k'.machine.mem (f.val * 4096 + a % 4096) = 0 := by
  obtain ⟨ms, m', r, k', hbare, hbrk⟩ := bareKernel_returns (sysBrk 0x1800) [] [] []
    (by decide +kernel)
  obtain ⟨-, hwf, -⟩ := MemorySet.bareUser_ok MemorySet.sampleMachine_inv (by decide) (by decide)
    hbare
  exact ⟨ms, m', r, k', hbrk, sysBrk_grows hwf (show 0 < 0x1800 by decide) (by decide) hbrk⟩

/-- `Thread::sys_mmap`: `fd == usize::MAX` asks for anonymous memory, any other `fd` maps the
bytes of its file (`file_data()`), copied from the start of the area. -/
def sysMmap (start len : Nat) (fd : Nat) : KernelM Kernel Int := do
  let pcb := (← get).pcb
  let startva := if start = 0 then pcb.mmapPos.ceilAlign.val else start
  if fd = 2 ^ 64 - 1 then
    if start > 0 ∧ start ≤ pcb.heapPos.ceilAlign.val then return toIsize startva
    let area ← MapArea.new (VirtAddr.ofUsize startva) (VirtAddr.ofUsize (wrap (startva + len)))
      .framed userRW
    let ms ← Kernel.onMachine (pcb.memorySet.push area none)
    Kernel.modifyPcb fun p =>
      { p with memorySet := ms, mmapPos := VirtAddr.ofUsize (wrap (startva + len)) }
  else
    let area ← MapArea.new (VirtAddr.ofUsize startva) (VirtAddr.ofUsize (wrap (startva + len)))
      .framed userRW
    let data := (← Kernel.inode (← Kernel.openFile (← index pcb.fdManager.fdArray fd)).inode).fileData
    let ms ← Kernel.onMachine (pcb.memorySet.push area (some data))
    Kernel.modifyPcb fun p =>
      { p with memorySet := ms, mmapPos := VirtAddr.ofUsize (wrap (startva + len)) }
  return toIsize startva

/-! ## Mapping a file -/

/-- `mmap` of a descriptor's file at a non-zero `start` pushes the area of `[start, start + len)`
with the bytes of the file and moves the mmap position to its end. -/
theorem sysMmap_run_file {k : Kernel} {start len fd id : Nat} {f : OpenFile} {ino : INode}
    (hfd : fd ≠ 2 ^ 64 - 1) (hid : k.pcb.fdManager.fdArray[fd]? = some id)
    (hf : k.openFiles[id]? = some f) (hino : k.inodes[f.inode]? = some ino)
    (hstart : 0 < start) (hend : start + len < 2 ^ 38) :
    (sysMmap start len fd).run k = (do
      let ms ← Kernel.onMachine (k.pcb.memorySet.push ⟨⟨⟨start / 4096⟩,
        ⟨(start + len + 4095) / 4096⟩, by dsimp only; omega⟩, [], .framed, userRW⟩
        (some ino.fileData))
      Kernel.modifyPcb fun p => { p with memorySet := ms, mmapPos := ⟨start + len⟩ }
      return toIsize start : KernelM Kernel Int).run k := by
  have hpos : VirtAddr.ofUsize (start + len) = ⟨start + len⟩ := by
    have hv := VirtAddr.ofUsize_val (start + len)
    rw [Nat.mod_eq_of_lt (by omega)] at hv
    calc VirtAddr.ofUsize (start + len) = ⟨(VirtAddr.ofUsize (start + len)).val⟩ := rfl
      _ = ⟨start + len⟩ := by rw [hv]
  have hfd' : ¬fd = 18446744073709551615 := hfd
  simp [sysMmap, hstart.ne', hfd', wrap_of_lt (show start + len < 2 ^ 64 by omega),
    userRWArea_new (Nat.le_add_right start len) hend, index, hid, Kernel.openFile, hf,
    Kernel.inode, hino]
  rw [hpos]

/-- **Mapping a file.** A run of `mmap(start, len, fd)` on a descriptor's file, at a non-zero
page-aligned `start` with `start + len < 2 ^ 38` and a file of at most `len` bytes, from a user
space, that returns: it gives `start` and moves the mmap position to `start + len`; the space
is a user space again on the same table and keeps what it mapped, with the bytes; and byte `i`
of the range is on a page mapped `R | W | U` to a frame holding byte `i` of the file, or zero
past its end. -/
theorem sysMmap_file {strampoline : Nat} {k k' : Kernel} {start len fd id : Nat} {f : OpenFile}
    {ino : INode} {r : Int} (hwf : k.pcb.memorySet.UserWF strampoline k.machine)
    (hfd : fd ≠ 2 ^ 64 - 1) (hid : k.pcb.fdManager.fdArray[fd]? = some id)
    (hf : k.openFiles[id]? = some f) (hino : k.inodes[f.inode]? = some ino)
    (hstart : 0 < start) (hal : start % 4096 = 0) (hend : start + len < 2 ^ 38)
    (hfits : ino.fileData.length ≤ len) (h : (sysMmap start len fd).run k = .ok (r, k')) :
    r = start ∧ k'.pcb.mmapPos = ⟨start + len⟩ ∧ k'.pcb.memorySet.UserWF strampoline k'.machine ∧
      k'.pcb.memorySet.pageTable.rootPpn = k.pcb.memorySet.pageTable.rootPpn ∧
      Keeps k.pcb.memorySet.pageTable.rootPpn k.machine k'.machine ∧
      ∀ i < len, ∃ fr,
        PageTable.lookup k'.machine.mem k.pcb.memorySet.pageTable.rootPpn ⟨(start + i) / 4096⟩ =
          some (fr, ⟨userRW.bits⟩ ||| PTEFlags.V) ∧
        k'.machine.mem (fr.val * 4096 + (start + i) % 4096) = (ino.fileData[i]?).getD 0 := by
  rw [sysMmap_run_file hfd hid hf hino hstart hend] at h
  obtain ⟨ms', k₁, h₁, h⟩ := StateT.run_bind_eq_ok h
  obtain ⟨m', hpush, rfl⟩ := Kernel.onMachine_eq_ok h₁
  simp only [Kernel.modifyPcb] at h
  cases h
  -- the file fits in the pages of the area
  have hlen : ∀ d ∈ some ino.fileData, d.length ≤ 4096 * (⟨⟨start / 4096⟩,
      ⟨(start + len + 4095) / 4096⟩, by dsimp only; omega⟩ : VPNRange).toList.length := by
    intro d hd
    rw [Option.mem_some_iff] at hd
    subst hd
    simp only [VPNRange.toList, List.length_map, List.length_range']
    omega
  obtain ⟨hroot, hwf', hk, hpages⟩ := MemorySet.push_pages hwf rfl rfl (by dsimp only; omega)
    hlen hpush
  refine ⟨by simp [toIsize]; omega, rfl, hwf', hroot, hk, fun i hi => ?_⟩
  -- byte `i` is on page `i / 4096` of the area, at the offset it has in the file
  obtain ⟨fr, hfr, himg⟩ := hpages ⟨(start + i) / 4096⟩
    (VPNRange.mem_toList.mpr ⟨by dsimp only; omega, by dsimp only; omega⟩)
  refine ⟨fr, hfr, ?_⟩
  rw [himg _ (Nat.mod_lt _ (by norm_num)), Option.getD_some,
    show 4096 * ((start + i) / 4096 - start / 4096) + (start + i) % 4096 = i by omega]

/-- `sysMmap_file` on the bare space: a three-byte file mapped at `0x1000`. -/
theorem sysMmap_file_three_bytes :
    ∃ ms m' r k', (sysMmap 0x1000 0x10 0).run (bareKernel m' ms [.regFile ⟨true, true, [1, 2, 3]⟩]
        [⟨0, 0, true, true, 0⟩] [0]) = .ok (r, k') ∧
      r = 0x1000 ∧ k'.pcb.mmapPos = ⟨0x1010⟩ ∧ k'.pcb.memorySet.UserWF 0x80200000 k'.machine ∧
      k'.pcb.memorySet.pageTable.rootPpn = ms.pageTable.rootPpn ∧
      Keeps ms.pageTable.rootPpn m' k'.machine ∧
      ∀ i < 0x10, ∃ fr,
        PageTable.lookup k'.machine.mem ms.pageTable.rootPpn ⟨(0x1000 + i) / 4096⟩ =
          some (fr, ⟨userRW.bits⟩ ||| PTEFlags.V) ∧
        k'.machine.mem (fr.val * 4096 + (0x1000 + i) % 4096) = ([1, 2, 3][i]?).getD 0 := by
  obtain ⟨ms, m', r, k', hbare, hmmap⟩ := bareKernel_returns (sysMmap 0x1000 0x10 0)
    [.regFile ⟨true, true, [1, 2, 3]⟩] [⟨0, 0, true, true, 0⟩] [0] (by decide +kernel)
  obtain ⟨-, hwf, -⟩ := MemorySet.bareUser_ok MemorySet.sampleMachine_inv (by decide) (by decide)
    hbare
  exact ⟨ms, m', r, k', hmmap, sysMmap_file hwf (by decide) rfl rfl rfl (by decide) (by decide)
    (by decide) (by decide) hmmap⟩

/-- Anonymous `mmap` at a `start` that is not above the page-rounded heap top returns `start`
and changes nothing, whatever the length: no page of the range is mapped by the call. -/
theorem sysMmap_below_heap (k : Kernel) {start : Nat} (len : Nat) (h0 : 0 < start)
    (hle : start ≤ k.pcb.heapPos.ceilAlign.val) :
    (sysMmap start len (2 ^ 64 - 1)).run k = .ok (toIsize start, k) := by
  simp [sysMmap, Nat.pos_iff_ne_zero.mp h0, h0, hle]
  rfl

/-- `Thread::sys_fcntl`: `F_SETFD` (2) sets close-on-exec from bit 0 of `arg` on the open
file, and `F_DUPFD_CLOEXEC` (1030) does the same and then duplicates the descriptor. -/
def sysFcntl (fd cmd arg : Nat) : KernelM Kernel Int := do
  let fm := (← get).pcb.fdManager
  match cmd with
  | 2 =>
    let id ← index fm.fdArray fd
    Kernel.setOpenFile id ((← Kernel.openFile id).setCloseOnExec (arg &&& 1 ≠ 0))
    return 0
  | 1030 =>
    let id ← index fm.fdArray fd
    Kernel.setOpenFile id ((← Kernel.openFile id).setCloseOnExec (arg &&& 1 ≠ 0))
    let (fm, newFd) ← fm.dup fd
    Kernel.modifyPcb fun p => { p with fdManager := fm }
    return toIsize newFd
  | _ => return 0

/-- `Thread::sys_lseek`: `SEEK_SET` (0), `SEEK_CUR` (1), `SEEK_END` (2). -/
def sysLseek (fd offset whence : Nat) : KernelM Kernel Int := do
  let id ← index (← get).pcb.fdManager.fdArray fd
  match whence with
  | 0 =>
    Kernel.setOpenFile id { (← Kernel.openFile id) with offset := offset }
    return toIsize offset
  | 1 =>
    let f ← Kernel.openFile id
    Kernel.setOpenFile id { f with offset := wrap (f.offset + offset) }
    return toIsize (wrap (f.offset + offset))
  | 2 =>
    let f ← Kernel.openFile id
    let len := (← Kernel.inode f.inode).fileSize
    Kernel.setOpenFile id { f with offset := wrap (len + offset) }
    return toIsize (wrap (len + offset))
  | _ => return -1

end Thread

end NaiveOs
