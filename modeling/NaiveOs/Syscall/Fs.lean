import Mathlib
import NaiveOs.Mm.UserBuffer
import NaiveOs.Syscall.Mm
import NaiveOs.Mm.ElfLoad

/-!
# File system calls (`syscall/fs.rs`)

The descriptor calls index `fd_array[fd]` directly, except `sys_close` and `sys_fstat`, which
compare `fd` with the table's length first; a descriptor names a shared `OpenFile`, whose
`offset` every alias moves. `sys_read` and `sys_write` walk the user buffer with
`translated_byte_buffer` and hand each slice to the inode; `sys_read` yields once after a slice
that read nothing, and moves on to the next slice.

What the scheduler runs while a reader yields is a parameter `onYield` of the calls that can
yield. Paths are the strings `translate_str` reads from user memory, and `OpenFlags` are the
bits of `fs/file.rs`.
-/

namespace NaiveOs

/-- `OpenFlags::RDONLY`. -/
def OpenFlags.RDONLY : Nat := 0
/-- `OpenFlags::WRONLY`. -/
def OpenFlags.WRONLY : Nat := 1 <<< 0
/-- `OpenFlags::RDWR`. -/
def OpenFlags.RDWR : Nat := 1 <<< 1
/-- `OpenFlags::CREATE`. -/
def OpenFlags.CREATE : Nat := 1 <<< 6

namespace Path

/-- `str::as_bytes`: the UTF-8 encoding. -/
def utf8 (s : String) : List UInt8 := s.toList.flatMap String.utf8EncodeChar

/-- `str::starts_with`. -/
def startsWith (s pat : String) : Bool := pat.toList.isPrefixOf s.toList

/-- `strip_prefix(pat).unwrap()` on a string that starts with `pat`: the rest of it. -/
def strip (s pat : String) : String := String.ofList (s.toList.drop pat.toList.length)

end Path

namespace Kernel

/-- Change the machine's memory. -/
def modifyMem (f : ByteMem → ByteMem) : KernelM Kernel Unit :=
  modify fun k => { k with machine := { k.machine with mem := f k.machine.mem } }

end Kernel

/-- `Stat::new()` with `st_size` set, as the 128 bytes `copy_out` reads (`#[repr(C)]`: the four
bytes of padding before `st_blocks` are zero here). -/
def Stat.bytes (size : Nat) : List UInt8 :=
  let le (v n : Nat) : List UInt8 := (List.range n).map fun i => UInt8.ofNat (v / 256 ^ i)
  le 1 8 ++ le 1 8 ++ le 32768 4 ++ le 1 4 ++ le 0 4 ++ le 0 4 ++ le 0xaabbccdd11223344 8 ++
    le 0 8 ++ le size 4 ++ le 512 4 ++ le 0 4 ++ le 0 4 ++ le 1 8 ++ le 0 48 ++ le 0 8

namespace INode

/-- A readable terminal takes a byte from the console on every read. -/
def takesInput : INode → Bool
  | .terminal t => t.readable
  | _ => false

end INode

namespace Thread

/-! ## User memory -/

/-- `translated_byte_buffer(memory_set.token(), buf, len)` for the calling process. -/
def userBuffers (buf len : Nat) : KernelM Kernel (List PhysSlice) := do
  let k ← get
  StateT.lift (translatedByteBuffer k.pcb.memorySet.token k.machine.mem buf len)

/-- `Thread::translate(ptr)`: the physical address of the one byte `ptr` of the caller. -/
def translate (ptr : Nat) : KernelM Kernel Nat := do
  let k ← get
  StateT.lift (translateUser k.pcb.memorySet.pageTable k.machine.mem ptr)

/-- `buffer[i] = b` on a slice of physical memory. -/
def storeByte (s : PhysSlice) (i : Nat) (b : UInt8) : KernelM Kernel Unit :=
  if i < s.len then Kernel.modifyMem fun mem => mem.store (s.start + i) 1 fun _ => b
  else throw (.indexOutOfBounds i s.len)

/-! ## Reading and writing through a descriptor -/

/-- One iteration of the `for buffer in buffers` loop of `sys_write`: the inode writes the
slice's bytes at the open file's offset, `unwrap()` panics on an error, and the offset and the
sum advance by the count. -/
def writeChunk (id : Nat) (sum : Nat) (s : PhysSlice) : KernelM Kernel Nat := do
  let f ← Kernel.openFile id
  let ino ← Kernel.inode f.inode
  match ← StateT.lift (ino.writeAt f.offset ((← get).machine.mem.bytes s.start s.len)) with
  | .error _ => throw .unwrapErr
  | .ok (n, ino', out) =>
    Kernel.setInode f.inode ino'
    Kernel.print out
    Kernel.setOpenFile id { f with offset := wrap (f.offset + n) }
    pure (wrap (sum + n))

/-- `Thread::sys_write`: `fd_array[fd]` panics past the table, and an open file that is not
writable gives `-1`. -/
def sysWrite (fd buf len : Nat) : KernelM Kernel Int := do
  let id ← index (← get).pcb.fdManager.fdArray fd
  if !(← Kernel.openFile id).writable then return -1
  let buffers ← userBuffers buf len
  let sum ← buffers.foldlM (writeChunk id) 0
  return toIsize sum

/-- One iteration of the `for buffer in buffers` loop of `sys_read`: the inode reads at the open
file's offset into the slice, the offset and the sum advance by the count, and a read of
nothing yields once before the next slice (the inner `for i in 0..1` runs one time). -/
def readChunk (onYield : KernelM Kernel Unit) (id : Nat) (sum : Nat) (s : PhysSlice) :
    KernelM Kernel Nat := do
  let f ← Kernel.openFile id
  let ino ← Kernel.inode f.inode
  let input ← if ino.takesInput then Kernel.consoleGetchar else pure 0
  match ← StateT.lift (ino.readAt f.offset s.len input) with
  | .error _ => throw .unwrapErr
  | .ok bytes =>
    Kernel.modifyMem fun mem => mem.writeBytes s.start bytes
    Kernel.setOpenFile id { f with offset := wrap (f.offset + bytes.length) }
    if bytes.length = 0 then onYield
    pure (wrap (sum + bytes.length))

/-- `Thread::sys_read`. -/
def sysRead (onYield : KernelM Kernel Unit) (fd buf len : Nat) : KernelM Kernel Int := do
  let id ← index (← get).pcb.fdManager.fdArray fd
  if !(← Kernel.openFile id).readable then return -1
  let buffers ← userBuffers buf len
  let sum ← buffers.foldlM (readChunk onYield id) 0
  return toIsize sum

/-- The `i`-th `iovec` of an array at the physical address `iov`: base and length. -/
def iovec (iov i : Nat) : KernelM Kernel (Nat × Nat) := do
  let mem := (← get).machine.mem
  pure (mem.readLE (iov + 16 * i) 8, mem.readLE (iov + 16 * i + 8) 8)

/-- `Thread::sys_writev`, with the array translated by the dispatcher
(`self.translate(args[1])`) and read as `len` contiguous `iovec`s from there. -/
def sysWritev (fd iov len : Nat) : KernelM Kernel Int := do
  let iov ← translate iov
  (List.range len).foldlM (fun sum i => do
    let (buf, size) ← iovec iov i
    pure (sum + (← sysWrite fd buf size))) 0

/-- `Thread::sys_readv`, like `sys_writev`. -/
def sysReadv (onYield : KernelM Kernel Unit) (fd iov len : Nat) : KernelM Kernel Int := do
  let iov ← translate iov
  (List.range len).foldlM (fun sum i => do
    let (buf, size) ← iovec iov i
    pure (sum + (← sysRead onYield fd buf size))) 0

/-- `Thread::sys_sendfile`: both descriptors index the table unchecked, the two open files are
locked together (the same one twice never returns), and neither access right is looked at. With
`offset == 0` both offsets advance; otherwise the input is read at `*offset`, which advances
instead, and the write's result is dropped. -/
def sysSendfile (outFd inFd offset count : Nat) : KernelM Kernel Int := do
  let fa := (← get).pcb.fdManager.fdArray
  let inId ← index fa inFd
  let outId ← index fa outFd
  if inId = outId then throw .selfDeadlock
  let inf ← Kernel.openFile inId
  let ino ← Kernel.inode inf.inode
  if offset = 0 then
    let input ← if ino.takesInput then Kernel.consoleGetchar else pure 0
    match ← StateT.lift (ino.readAt inf.offset count input) with
    | .error _ => throw .unwrapErr
    | .ok bytes =>
      let of ← Kernel.openFile outId
      match ← StateT.lift ((← Kernel.inode of.inode).writeAt of.offset bytes) with
      | .error _ => throw .unwrapErr
      | .ok (_, oino, out) =>
        Kernel.setInode of.inode oino
        Kernel.print out
        Kernel.setOpenFile inId { inf with offset := wrap (inf.offset + bytes.length) }
        Kernel.setOpenFile outId { of with offset := wrap (of.offset + bytes.length) }
        return toIsize bytes.length
  else
    let pa ← translate offset
    let input ← if ino.takesInput then Kernel.consoleGetchar else pure 0
    match ← StateT.lift (ino.readAt ((← get).machine.mem.readLE pa 8) count input) with
    | .error _ => throw .unwrapErr
    | .ok bytes =>
      let of ← Kernel.openFile outId
      match ← StateT.lift ((← Kernel.inode of.inode).writeAt of.offset bytes) with
      | .error _ => pure ()
      | .ok (_, oino, out) =>
        Kernel.setInode of.inode oino
        Kernel.print out
      Kernel.setOpenFile outId { of with offset := wrap (of.offset + bytes.length) }
      let off := (← get).machine.mem.readLE pa 8
      Kernel.modifyMem fun mem => mem.writeLE pa 8 (wrap (off + bytes.length))
      return toIsize bytes.length

/-! ## The descriptor table -/

/-- `Thread::sys_close`: the one call besides `sys_fstat` that checks the descriptor. -/
def sysClose (fd : Nat) : KernelM Kernel Int := do
  let fm := (← get).pcb.fdManager
  if fd ≥ fm.len then return -1
  let fm ← fm.close fd
  Kernel.modifyPcb fun p => { p with fdManager := fm }
  return 0

/-- `Thread::sys_dup`. -/
def sysDup (fd : Nat) : KernelM Kernel Int := do
  let (fm, newFd) ← (← get).pcb.fdManager.dup fd
  Kernel.modifyPcb fun p => { p with fdManager := fm }
  return toIsize newFd

/-- `Thread::sys_dup3`; `flags` is not used. -/
def sysDup3 (fd newFd : Nat) : KernelM Kernel Int := do
  let (fm, newFd) ← (← get).pcb.fdManager.dup3 fd newFd
  Kernel.modifyPcb fun p => { p with fdManager := fm }
  return toIsize newFd

/-- `Thread::sys_fstat`: `st_size` is the inode's `file_size() as u32`. -/
def sysFstat (fd buf : Nat) : KernelM Kernel Int := do
  let fm := (← get).pcb.fdManager
  if fd ≥ fm.len then return -1
  let f ← Kernel.openFile (← index fm.fdArray fd)
  let size := (← Kernel.inode f.inode).fileSize
  let token := (← get).pcb.memorySet.token
  Kernel.onMachine (copyOut token buf (Stat.bytes (size % 2 ^ 32)) 128)
  return 0

/-- `Thread::sys_pipe2`, with the array translated by the dispatcher: the read end and the
write end share one pipe, and the two descriptors go to `pipe[0]` and `pipe[1]` as `u32`s. -/
def sysPipe2 (pipe : Nat) : KernelM Kernel Int := do
  let pa ← translate pipe
  let ino ← Kernel.newInode (.pipe PipeINode.newPipe)
  let r ← Kernel.newOpenFile (OpenFile.newFromInode true false ino)
  let (fm, readFd) := (← get).pcb.fdManager.push r
  let w ← Kernel.newOpenFile (OpenFile.newFromInode false true ino)
  let (fm, writeFd) := fm.push w
  Kernel.modifyPcb fun p => { p with fdManager := fm }
  Kernel.modifyMem fun mem => (mem.writeLE pa 4 readFd).writeLE (pa + 4) 4 writeFd
  return 0

/-! ## Paths -/

/-- `Thread::get_abs_path`: an absolute path starts at `/`, a relative one at the working
directory, with a leading `./` stripped. -/
def getAbsPath (cwd path : String) : String × String :=
  if Path.startsWith path "/" then ("/", Path.strip path "/")
  else (cwd, if Path.startsWith path "./" then Path.strip path "./" else path)

/-- `Thread::sys_chdir`: `cwd + path + "/"`, whatever the path. -/
def sysChdir (path : String) : KernelM Kernel Int := do
  Kernel.modifyPcb fun p => { p with cwd := p.cwd ++ path ++ "/" }
  return 0

/-- `Thread::sys_getcwd`: the working directory and a NUL are written to `buffers[0]`, the
first slice of the buffer, whatever its length. -/
def sysGetcwd (buf size : Nat) : KernelM Kernel Int := do
  let cwd := Path.utf8 (← get).pcb.cwd
  if size < cwd.length + 1 then return -1
  let buffers ← userBuffers buf (cwd.length + 1)
  (cwd.zip (List.range cwd.length)).forM fun (b, i) => do storeByte (← index buffers 0) i b
  storeByte (← index buffers 0) cwd.length 0
  return toIsize (cwd.length + 1)

/-- The access rights `sys_openat` decodes from `flags as u32`:
`((flags ^ RDONLY) | (flags ^ RDWR)) != 0` for reading. -/
def openReadable (flags : Nat) : Bool :=
  ((flags % 2 ^ 32) ^^^ OpenFlags.RDONLY ||| (flags % 2 ^ 32) ^^^ OpenFlags.RDWR) != 0

/-- `((flags ^ WRONLY) | (flags ^ RDWR)) != 0`, for writing. -/
def openWritable (flags : Nat) : Bool :=
  ((flags % 2 ^ 32) ^^^ OpenFlags.WRONLY ||| (flags % 2 ^ 32) ^^^ OpenFlags.RDWR) != 0

/-- The dentry key `format!("{}{}", start_dir_path, rel_path)` of a path. -/
def absPath (cwd path : String) : String := (getAbsPath cwd path).1 ++ (getAbsPath cwd path).2

/-- `Thread::sys_openat`: a key in `GLOBAL_DENTRY_CACHE` is opened; any other is created as an
empty regular file under that key, after `println!("CREATING new file.")`, whatever the
flags. -/
def sysOpenat (path : String) (flags : Nat) : KernelM Kernel Int := do
  let key := absPath (← get).pcb.cwd path
  let ino ← match ← Kernel.dentryGet key with
    | some ino => pure ino
    | none => do
      Kernel.print (TerminalINode.putChars "CREATING new file.\n")
      let ino ← Kernel.newInode (.regFile (RegFileINode.new true true))
      Kernel.dentryInsert key ino
      pure ino
  let f ← Kernel.newOpenFile (OpenFile.newFromInode (openReadable flags) (openWritable flags) ino)
  let (fm, fd) := (← get).pcb.fdManager.push f
  Kernel.modifyPcb fun p => { p with fdManager := fm }
  return toIsize fd

/-! ## A process with two user pages

The runs below start from a process whose page table (root frame 1, directory frame 2, leaf
frame 3) maps the user pages 16 and 17, at `0x10000` and `0x11000`, to frames 5 and 6 with
`R | W | U`, and whose working directory, descriptors, open files, inodes and dentry cache are
given. -/

/-- The page table of that process, in otherwise zeroed memory. -/
def twoPageMem : ByteMem :=
  (((ByteMem.writeLE (fun _ => 0) 4096 8 2049).writeLE 8192 8 3073).writeLE 12416 8 5143).writeLE
    12424 8 6167

/-- The calling process on memory `mem`. -/
def twoPageKernel (mem : ByteMem) (inodes : List INode) (openFiles : List OpenFile)
    (fds : List Nat) (cwd : String) (cache : List (String × Nat)) : Kernel :=
  ⟨⟨mem, ⟨0, 0, []⟩⟩, inodes, openFiles, cache, [], [], 1, ⟨⟨⟨0⟩, []⟩, []⟩, [],
    ⟨0, ⟨0⟩, ⟨⟨⟨1⟩, []⟩, []⟩, ⟨0⟩, ⟨0⟩, cwd, ⟨fds⟩, []⟩⟩

/-! ## Descriptors past the table -/

section BadFd

variable {k : Kernel} {fd : Nat}

theorem sysWrite_of_len_le (h : k.pcb.fdManager.len ≤ fd) (buf len : Nat) :
    (sysWrite fd buf len).run k = .error (.indexOutOfBounds fd k.pcb.fdManager.len) := by
  simp [sysWrite, FdManager.len, index_run_of_le h]

theorem sysRead_of_len_le (h : k.pcb.fdManager.len ≤ fd) (onYield : KernelM Kernel Unit)
    (buf len : Nat) :
    (sysRead onYield fd buf len).run k = .error (.indexOutOfBounds fd k.pcb.fdManager.len) := by
  simp [sysRead, FdManager.len, index_run_of_le h]

theorem sysLseek_of_len_le (h : k.pcb.fdManager.len ≤ fd) (offset whence : Nat) :
    (sysLseek fd offset whence).run k = .error (.indexOutOfBounds fd k.pcb.fdManager.len) := by
  simp [sysLseek, FdManager.len, index_run_of_le h]

theorem sysFcntl_setfd_of_len_le (h : k.pcb.fdManager.len ≤ fd) (arg : Nat) :
    (sysFcntl fd 2 arg).run k = .error (.indexOutOfBounds fd k.pcb.fdManager.len) := by
  simp [sysFcntl, FdManager.len, index_run_of_le h]

theorem sysSendfile_of_len_le (h : k.pcb.fdManager.len ≤ fd) (outFd offset count : Nat) :
    (sysSendfile outFd fd offset count).run k =
      .error (.indexOutOfBounds fd k.pcb.fdManager.len) := by
  simp [sysSendfile, FdManager.len, index_run_of_le h]

theorem sysDup_of_len_le (h : k.pcb.fdManager.len ≤ fd) : (sysDup fd).run k = .error .unwrapNone := by
  simp [sysDup, FdManager.dup, List.getElem?_eq_none h, unwrap]
  rfl

theorem sysDup3_of_len_le (h : k.pcb.fdManager.len ≤ fd) (newFd : Nat) :
    (sysDup3 fd newFd).run k = .error .unwrapNone := by
  simp [sysDup3, FdManager.dup3, List.getElem?_eq_none h, unwrap]
  rfl

/-- The two calls that check the descriptor give `-1` and change nothing. -/
theorem sysClose_of_len_le (h : k.pcb.fdManager.len ≤ fd) : (sysClose fd).run k = .ok (-1, k) := by
  simp [sysClose, h]
  rfl

theorem sysFstat_of_len_le (h : k.pcb.fdManager.len ≤ fd) (buf : Nat) :
    (sysFstat fd buf).run k = .ok (-1, k) := by
  simp [sysFstat, h]
  rfl

end BadFd

/-! ## Writing a regular file -/

section Write

variable {id : Nat}

/-- One slice of `sys_write` on a writable regular file: its bytes go in at the open file's
offset, and the offset and the sum move by its length. -/
theorem writeChunk_regFile {k : Kernel} {f : OpenFile} {r : RegFileINode}
    (hf : k.openFiles[id]? = some f) (hino : k.inodes[f.inode]? = some (.regFile r))
    (hrw : r.writable = true) {sum : Nat} (s : PhysSlice) (hoff : f.offset + s.len < 2 ^ 64)
    (hsum : sum + s.len < 2 ^ 64) :
    (writeChunk id sum s).run k = .ok (sum + s.len, { k with
      inodes := k.inodes.set f.inode (.regFile { r with file := (r.file.take f.offset ++
        k.machine.mem.bytes s.start s.len ++ r.file.drop (f.offset + s.len)) }),
      openFiles := k.openFiles.set id { f with offset := f.offset + s.len } }) := by
  have hw := RegFileINode.writeAt_of_writable hrw f.offset (k.machine.mem.bytes s.start s.len)
    (by simpa using hoff)
  simp only [ByteMem.bytes_length] at hw
  simp [writeChunk, Kernel.openFile, Kernel.inode, index, hf, hino, INode.writeAt, hw,
    Kernel.setInode, Kernel.print, Kernel.setOpenFile, Except.map, wrap_of_lt hoff, wrap_of_lt hsum]
  rfl

/-- The slice loop of `sys_write` on a writable regular file writes the bytes of all slices, in
order, at the starting offset. The induction is on the slices; each step is one
`writeChunk_regFile`, and `splice_append` joins the write to the ones after it. -/
theorem foldlM_writeChunk_regFile : ∀ (slices : List PhysSlice) {k : Kernel} {f : OpenFile}
    {r : RegFileINode} {sum : Nat}, k.openFiles[id]? = some f →
    k.inodes[f.inode]? = some (.regFile r) → r.writable = true →
    f.offset + (slices.map PhysSlice.len).sum < 2 ^ 64 →
    sum + (slices.map PhysSlice.len).sum < 2 ^ 64 →
    (slices.foldlM (writeChunk id) sum).run k = .ok (sum + (slices.map PhysSlice.len).sum,
      { k with
        inodes := k.inodes.set f.inode (.regFile { r with file := (r.file.take f.offset ++
          (slices.flatMap fun s => k.machine.mem.bytes s.start s.len) ++
          r.file.drop (f.offset + (slices.map PhysSlice.len).sum)) }),
        openFiles := k.openFiles.set id
          { f with offset := f.offset + (slices.map PhysSlice.len).sum } })
  | [], k, f, r, sum, hf, hino, _, _, _ => by
    -- nothing is written: both tables get back the entries they had
    obtain ⟨hi, hget⟩ := List.getElem?_eq_some_iff.mp hf
    obtain ⟨hj, hgetj⟩ := List.getElem?_eq_some_iff.mp hino
    have hfs : k.openFiles.set id f = k.openFiles := hget ▸ List.set_getElem_self hi
    have hrs : k.inodes.set f.inode (.regFile r) = k.inodes := hgetj ▸ List.set_getElem_self hj
    simp only [List.flatMap_nil, List.map_nil, List.sum_nil, Nat.add_zero, List.append_nil,
      List.take_append_drop, List.foldlM_nil, hfs, hrs]
    rfl
  | s :: rest, k, f, r, sum, hf, hino, hrw, hoff, hsum => by
    -- one slice, then the rest of the loop from the state it leaves
    simp only [List.map_cons, List.sum_cons] at hoff hsum
    have hi : id < k.openFiles.length := (List.getElem?_eq_some_iff.mp hf).1
    have hj : f.inode < k.inodes.length := (List.getElem?_eq_some_iff.mp hino).1
    rw [List.foldlM_cons, StateT.run_bind_of_ok (writeChunk_regFile hf hino hrw s (by omega)
      (by omega))]
    have hf₁ : (k.openFiles.set id { f with offset := f.offset + s.len })[id]? =
        some { f with offset := f.offset + s.len } := by simp [hi]
    have hino₁ : (k.inodes.set f.inode (.regFile { r with file := (r.file.take f.offset ++
        k.machine.mem.bytes s.start s.len ++ r.file.drop (f.offset + s.len)) }))[f.inode]? =
        some (.regFile { r with file := (r.file.take f.offset ++
          k.machine.mem.bytes s.start s.len ++ r.file.drop (f.offset + s.len)) }) := by simp [hj]
    -- `hrw` is given last, so that `r` is the file after the slice and not the one before it
    rw [foldlM_writeChunk_regFile rest hf₁ hino₁ (by exact hrw) (by dsimp only; omega)
      (by omega)]
    simp only [List.set_set, List.flatMap_cons, List.map_cons, List.sum_cons]
    rw [RegFileINode.splice_append _ _ _ _ (ByteMem.bytes_length _ _ _) (by simp),
      Nat.add_assoc sum, Nat.add_assoc f.offset]

/-- **`sys_write` to a writable regular file.** When the descriptor names a writable open file on
a writable regular file, and the buffer lies in one canonical half with every byte mapped,
`sys_write` returns `len`, puts the bytes a user load reads at `buf, …, buf + len - 1` into the
file at the open file's offset, over what was there and then past the end, and moves the
offset by `len`; nothing else changes. -/
theorem sysWrite_regFile {k : Kernel} {fd buf len : Nat} {f : OpenFile} {r : RegFileINode}
    (hfd : k.pcb.fdManager.fdArray[fd]? = some id) (hf : k.openFiles[id]? = some f)
    (hwr : f.writable = true) (hino : k.inodes[f.inode]? = some (.regFile r))
    (hrw : r.writable = true)
    (hhalf : buf + len ≤ 2 ^ 38 ∨ (2 ^ 64 - 2 ^ 38 ≤ buf ∧ buf + len < 2 ^ 64))
    (hmapped : ∀ i < len, (userByte (PageTable.fromToken k.pcb.memorySet.token) k.machine.mem
      (buf + i)).isSome)
    (hoff : f.offset + len < 2 ^ 64) :
    ∃ bytes : List UInt8, bytes.map some = (List.range len).map (fun i =>
        userByte (PageTable.fromToken k.pcb.memorySet.token) k.machine.mem (buf + i)) ∧
      (sysWrite fd buf len).run k = .ok (len, { k with
        inodes := k.inodes.set f.inode (.regFile { r with file := (r.file.take f.offset ++ bytes ++
          r.file.drop (f.offset + len)) }),
        openFiles := k.openFiles.set id { f with offset := f.offset + len } }) := by
  obtain ⟨slices, hrun, ht⟩ := translatedByteBuffer_spec hhalf fun i hi => by
    simpa [userByte] using hmapped i hi
  have hn := ht.len_sum
  refine ⟨_, ht.bytes_eq_userByte, ?_⟩
  have hfold := foldlM_writeChunk_regFile slices hf hino hrw (by omega)
    (show 0 + (slices.map PhysSlice.len).sum < 2 ^ 64 by omega)
  rw [hn, Nat.zero_add] at hfold
  simp [sysWrite, index, hfd, Kernel.openFile, hf, hwr, userBuffers, hrun]
  rw [hfold]
  -- the count is below `2^63`, as the buffer lies in one half
  simp [toIsize, hwr]
  omega

/-- Two bytes from `0x10000` written at offset 1 of a three-byte file. -/
theorem sysWrite_regFile_overwrite :
    let k := twoPageKernel (twoPageMem.writeBytes 20480 [65, 66])
      [.regFile ⟨true, true, [1, 2, 3]⟩] [⟨1, 0, true, true, 0⟩] [0] "/" []
    ∃ bytes : List UInt8, bytes.map some = (List.range 2).map (fun i =>
        userByte (PageTable.fromToken k.pcb.memorySet.token) k.machine.mem (0x10000 + i)) ∧
      (sysWrite 0 0x10000 2).run k = .ok (2, { k with
        inodes := k.inodes.set 0 (.regFile ⟨true, true, [1] ++ bytes ++ []⟩),
        openFiles := k.openFiles.set 0 ⟨3, 0, true, true, 0⟩ }) :=
  @sysWrite_regFile 0 _ 0 0x10000 2 ⟨1, 0, true, true, 0⟩ ⟨true, true, [1, 2, 3]⟩ rfl rfl rfl rfl
    rfl (by decide) (by decide) (by decide)

end Write

/-- The first descriptor past the table, in every state: `sys_read`, `sys_write`, `sys_lseek`,
`sys_fcntl(F_SETFD)` and `sys_sendfile` panic on `fd_array[fd]`, and `sys_dup` and `sys_dup3`
on `get(fd).unwrap()`, where `sys_close` and `sys_fstat` return `-1`. -/
theorem descriptor_past_table (k : Kernel) (onYield : KernelM Kernel Unit)
    (buf len offset whence arg outFd newFd : Nat) :
    let fd := k.pcb.fdManager.len
    (sysRead onYield fd buf len).run k = .error (.indexOutOfBounds fd fd) ∧
    (sysWrite fd buf len).run k = .error (.indexOutOfBounds fd fd) ∧
    (sysLseek fd offset whence).run k = .error (.indexOutOfBounds fd fd) ∧
    (sysFcntl fd 2 arg).run k = .error (.indexOutOfBounds fd fd) ∧
    (sysSendfile outFd fd offset len).run k = .error (.indexOutOfBounds fd fd) ∧
    (sysDup fd).run k = .error .unwrapNone ∧
    (sysDup3 fd newFd).run k = .error .unwrapNone ∧
    (sysClose fd).run k = .ok (-1, k) ∧
    (sysFstat fd buf).run k = .ok (-1, k) := by
  intro fd
  have h : k.pcb.fdManager.len ≤ fd := le_rfl
  exact ⟨sysRead_of_len_le h onYield buf len, sysWrite_of_len_le h buf len,
    sysLseek_of_len_le h offset whence, sysFcntl_setfd_of_len_le h arg,
    sysSendfile_of_len_le h outFd offset len, sysDup_of_len_le h, sysDup3_of_len_le h newFd,
    sysClose_of_len_le h, sysFstat_of_len_le h buf⟩

/-! ## `dup3` -/

/-- The padding loop of `dup3` from a table `d` entries short of `new_fd` pushes `d` fresh
open files. The induction is on `d`. -/
theorem padTo_run (newFd : Nat) : ∀ (d : Nat) (fm : FdManager) (k : Kernel), fm.len + d = newFd →
    ∃ fresh k', (FdManager.padTo newFd d fm).run k = .ok (⟨fm.fdArray ++ fresh⟩, k') ∧
      fresh.length = d := by
  intro d
  induction d with
  | zero =>
    intro fm k _
    exact ⟨[], k, by simp [FdManager.padTo]; rfl, rfl⟩
  | succ d ih =>
    intro fm k hlen
    have hlt : fm.len < newFd := by omega
    obtain ⟨fresh, k', hrun, hfresh⟩ := ih (fm.push k.openFiles.length).1
      { k with inodes := k.inodes ++ [.regFile (RegFileINode.new true true)],
               openFiles := k.openFiles ++ [OpenFile.newFromInode true true k.inodes.length] }
      (by simp [FdManager.push, FdManager.len] at hlen ⊢; omega)
    refine ⟨k.openFiles.length :: fresh, k', ?_, by simp [hfresh]⟩
    simp [FdManager.padTo, hlt, OpenFile.new, Kernel.newInode, Kernel.newOpenFile]
    simpa [FdManager.push] using hrun

/-- `dup3` from any open descriptor to any `new_fd` at or past the end of the table panics:
the padding stops at `new_fd` entries, and `fd_array[new_fd]` is one past them. -/
theorem sysDup3_past_table (k : Kernel) (pre post : List Nat) (f d : Nat) :
    (sysDup3 pre.length ((pre ++ f :: post).length + d)).run
      { k with pcb := { k.pcb with fdManager := ⟨pre ++ f :: post⟩ } } =
      .error (.indexOutOfBounds ((pre ++ f :: post).length + d) ((pre ++ f :: post).length + d)) := by
  obtain ⟨fresh, k', hpad, hlen⟩ := padTo_run ((pre ++ f :: post).length + d) d ⟨pre ++ f :: post⟩
    { k with pcb := { k.pcb with fdManager := ⟨pre ++ f :: post⟩ } } rfl
  simp only [List.length_append, List.length_cons] at hpad
  simp [sysDup3, FdManager.dup3, unwrap, FdManager.len, hpad, FdManager.setFd, hlen]
  -- the table has `new_fd` entries after the padding
  rw [if_neg (by omega)]
  simp only [Except.error_bind, Except.error.injEq, Panic.indexOutOfBounds.injEq, true_and]
  omega

/-! ## `openat` -/

/-- The read right `sys_openat` decodes holds for every `flags`: `flags ^ RDONLY` and
`flags ^ RDWR` are zero together only if `RDONLY = RDWR`. -/
theorem openReadable_eq_true (flags : Nat) : openReadable flags = true := by
  simp only [openReadable, bne_iff_ne, ne_eq, Nat.or_eq_zero_iff, Nat.xor_eq_zero_iff,
    OpenFlags.RDONLY, OpenFlags.RDWR]
  omega

theorem openWritable_eq_true (flags : Nat) : openWritable flags = true := by
  simp only [openWritable, bne_iff_ne, ne_eq, Nat.or_eq_zero_iff, Nat.xor_eq_zero_iff,
    OpenFlags.WRONLY, OpenFlags.RDWR]
  omega

section Openat

variable {k : Kernel} {path : String} {flags : Nat}

theorem sysOpenat_hit {ino : Nat} (h : k.dentryCache.lookup (absPath k.pcb.cwd path) = some ino) :
    (sysOpenat path flags).run k = .ok (toIsize k.pcb.fdManager.len,
      { k with
        openFiles := k.openFiles ++ [OpenFile.newFromInode true true ino]
        pcb := { k.pcb with
          fdManager := ⟨k.pcb.fdManager.fdArray ++ [k.openFiles.length]⟩ } }) := by
  simp [sysOpenat, Kernel.dentryGet, h, Kernel.newOpenFile, openReadable_eq_true,
    openWritable_eq_true, FdManager.push, Kernel.modifyPcb, FdManager.len]
  rfl

theorem sysOpenat_miss (h : k.dentryCache.lookup (absPath k.pcb.cwd path) = none) :
    (sysOpenat path flags).run k = .ok (toIsize k.pcb.fdManager.len,
      { k with
        inodes := k.inodes ++ [.regFile (RegFileINode.new true true)]
        openFiles := k.openFiles ++ [OpenFile.newFromInode true true k.inodes.length]
        dentryCache := (absPath k.pcb.cwd path, k.inodes.length) :: k.dentryCache
        stdout := k.stdout ++ TerminalINode.putChars "CREATING new file.\n"
        pcb := { k.pcb with
          fdManager := ⟨k.pcb.fdManager.fdArray ++ [k.openFiles.length]⟩ } }) := by
  -- the key is new, so `insert` has no old binding to drop
  have hfilter : k.dentryCache.filter (fun e => !decide (e.1 = absPath k.pcb.cwd path)) =
      k.dentryCache := by
    rw [List.filter_eq_self]
    intro e he
    have := List.lookup_eq_none_iff.mp h e he
    simp only [bne_iff_ne, ne_eq] at this
    simp [Ne.symm this]
  simp [sysOpenat, Kernel.dentryGet, h, Kernel.newOpenFile, Kernel.newInode, Kernel.print,
    Kernel.dentryInsert, openReadable_eq_true, openWritable_eq_true, FdManager.push,
    Kernel.modifyPcb, FdManager.len, hfilter]
  rfl

end Openat

/-- A path that is not in the cache, opened without `O_CREAT` (flags `0`, `O_RDONLY`), is
created: the call returns descriptor 0 and the cache now binds `/a`. -/
theorem openat_creates_without_creat :
    ((sysOpenat "a" 0).run (twoPageKernel twoPageMem [] [] [] "/" [])).map
      (fun r => (r.1, r.2.dentryCache, r.2.inodes)) =
      .ok (0, [("/a", 0)], [.regFile (RegFileINode.new true true)]) := by
  rw [sysOpenat_miss rfl]
  decide

/-- Every descriptor `sys_openat` returns is writable: `/f` opened `O_RDONLY` takes a write of
the byte at `0x10000`, which returns 1 and stores it in the file. -/
theorem sysWrite_through_rdonly_open :
    ((do let _ ← sysOpenat "/f" OpenFlags.RDONLY; sysWrite 0 0x10000 1 : KernelM Kernel Int).run
      (twoPageKernel (twoPageMem.writeBytes 20480 [65]) [.regFile (RegFileINode.new true true)] []
        [] "/" [("/f", 0)])).map (fun r => (r.1, r.2.inodes)) =
      .ok (1, [.regFile ⟨true, true, [65]⟩]) := by
  -- the cache binds `/f`, so the open takes the hit branch, which ignores the flags
  rw [StateT.run_bind_of_ok (sysOpenat_hit rfl)]
  set_option maxRecDepth 100000 in decide

/-! ## Offsets past the end of a regular file -/

/-- After `lseek(0, 10, SEEK_SET)` on an empty file, `read` panics in `read_at`
(`self.file[10..]`), and `write` of one byte puts it at index 0. -/
theorem regFile_past_end :
    ((do let _ ← sysLseek 0 10 0; sysRead (pure ()) 0 0x10000 1 : KernelM Kernel Int).run
      (twoPageKernel twoPageMem [.regFile (RegFileINode.new true true)]
        [OpenFile.newFromInode true true 0] [0] "/" [])).map (·.1) =
      .error (.sliceOutOfRange 10 0 0) ∧
    ((do let _ ← sysLseek 0 10 0; sysWrite 0 0x10000 1 : KernelM Kernel Int).run
      (twoPageKernel (twoPageMem.writeBytes 20480 [65]) [.regFile (RegFileINode.new true true)]
        [OpenFile.newFromInode true true 0] [0] "/" [])).map (fun r => (r.1, r.2.inodes)) =
      .ok (1, [.regFile ⟨true, true, [65]⟩]) := by
  constructor
  · decide
  · -- evaluating the write's page-table walk nests past the default recursion depth
    set_option maxRecDepth 100000 in decide

/-! ## The working directory -/

/-- `getcwd` into a buffer that crosses a page: with cwd `/`, the two bytes at `0x10FFF` are one
in each page, and the NUL goes to index 1 of the first slice, which has one byte. -/
theorem sysGetcwd_across_page_panics :
    ((sysGetcwd 0x10FFF 2).run (twoPageKernel twoPageMem [] [] [] "/" [])).map (·.1) =
      .error (.indexOutOfBounds 1 1) := by
  decide

/-- `chdir("/a")` and then `chdir("./b")` from `/` leave the cwd `//a/./b/`, so the key of `c` is
`//a/./b/c` and not `/a/b/c`. -/
theorem chdir_key_not_canonical :
    ((do let _ ← sysChdir "/a"; let _ ← sysChdir "./b"; pure (absPath (← get).pcb.cwd "c") :
        KernelM Kernel String).run' (twoPageKernel twoPageMem [] [] [] "/" [])) =
      .ok "//a/./b/c" := by
  decide

/-! ## Pipes -/

/-- A read of 4 bytes at `0x10FFE` from an empty pipe, while the writer puts `abc` in it during
the yield after the first slice: the read returns 2, with the two bytes in the second slice
and the first two bytes of the buffer untouched. -/
theorem pipe_read_across_yield :
    ((sysRead (do let _ ← sysWrite 1 0x11800 3; pure ()) 0 0x10FFE 4).run
      (twoPageKernel (twoPageMem.writeBytes 26624 [97, 98, 99]) [.pipe PipeINode.newPipe]
        [OpenFile.newFromInode true false 0, OpenFile.newFromInode false true 0] [0, 1] "/" [])).map
      (fun r => (r.1, r.2.machine.mem.bytes 24574 2, r.2.machine.mem.bytes 24576 2)) =
      .ok (2, [0, 0], [97, 98]) := by
  -- two slices, a yield that runs a write, and the reads back nest deeper still
  set_option maxRecDepth 200000 in decide

/-! ## Close-on-exec -/

/-- `fcntl(0, F_DUPFD_CLOEXEC, 1)` marks the open file that descriptors 0 and 1 then share, and
`close_on_exec` closes both. -/
theorem dupfd_cloexec_closes_source :
    ((do let _ ← sysFcntl 0 1030 1; FdManager.closeOnExec (← get).pcb.fdManager :
        KernelM Kernel FdManager).run'
      (twoPageKernel twoPageMem [.regFile (RegFileINode.new true true)]
        [OpenFile.newFromInode true true 0] [0] "/" [])) = .ok ⟨[1, 2]⟩ := by
  decide

/-! ## The terminal -/

/-- Writing the UTF-8 bytes of `é` to stdout returns 2 and prints the one byte `0xE9`, and
writing the byte `0xFF` panics in `from_utf8(..).unwrap()`. -/
theorem terminal_write_not_byte_transparent :
    ((sysWrite 0 0x10000 2).run
      (twoPageKernel (twoPageMem.writeBytes 20480 [0xC3, 0xA9]) [.terminal TerminalINode.newStdout]
        [OpenFile.newFromInode false true 0] [0] "/" [])).map (fun r => (r.1, r.2.stdout)) =
      .ok (2, [0xE9]) ∧
    ((sysWrite 0 0x10000 1).run
      (twoPageKernel (twoPageMem.writeBytes 20480 [0xFF]) [.terminal TerminalINode.newStdout]
        [OpenFile.newFromInode false true 0] [0] "/" [])).map (·.1) = .error .unwrapErr := by
  constructor
  · decide
  · decide

/-! ## Anonymous `mmap` below the heap top -/

/-- The two-page process with its heap top at `0x12000`, the page above the mapped ones. -/
def heapTopKernel : Kernel :=
  { twoPageKernel twoPageMem [] [] [] "/" [] with pcb.heapPos := ⟨0x12000⟩ }

/-- Anonymous `mmap(0x12000, 0x1000)` in that process returns `0x12000` and leaves the process
as it was, with page `0x12` of the returned range unmapped. -/
theorem mmap_returns_unmapped_page :
    (sysMmap 0x12000 0x1000 (2 ^ 64 - 1)).run heapTopKernel = .ok (0x12000, heapTopKernel) ∧
    (heapTopKernel.pcb.memorySet.pageTable.translate heapTopKernel.machine.mem ⟨0x12⟩).map
      PageTableEntry.isValid = some false := by
  constructor
  · have h := sysMmap_below_heap heapTopKernel 0x1000 (by decide : 0 < 0x12000) (by decide)
    rw [h]
    rfl
  · decide

end Thread

end NaiveOs
