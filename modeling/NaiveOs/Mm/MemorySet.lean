import Mathlib
import NaiveOs.Mm.PageTable

/-!
# Address spaces (`mm/memory_set.rs`)

A `MemorySet` is a page table and the list of `MapArea`s mapped in it. An area is a range of
virtual page numbers with a map type (`Identical` maps a vpn to the ppn of the same number,
`Framed` to a freshly allocated frame recorded in `data_frames`) and a permission.

The user spaces the kernel builds:

- `fromElf` maps the trampoline, one `Framed` area per `PT_LOAD` program header (copying the
  file bytes into it), the user stack and the trap frame, and returns the end of the last
  loaded area, which becomes the process's heap position;
- `fromExistedUser` (fork) maps the trampoline and a fresh copy of every area of another space,
  copying the bytes page by page.

The ELF file is what `from_elf` reads through `xmas_elf`: the magic, the entry point, the
program headers it iterates over, and the raw bytes (`ElfFile`). The address of the trampoline
code (`strampoline`, a linker symbol) is a parameter.
-/

namespace NaiveOs

/-! ## Areas -/

/-- `MapType`. -/
inductive MapType
  | identical
  | framed
  deriving DecidableEq, Repr

/-- `MapPermission`: the `R W X U` bits of a page-table entry. -/
structure MapPermission where
  bits : UInt8
  deriving DecidableEq, Repr

namespace MapPermission

def R : MapPermission := ⟨(1 : UInt8) <<< 1⟩
def W : MapPermission := ⟨(1 : UInt8) <<< 2⟩
def X : MapPermission := ⟨(1 : UInt8) <<< 3⟩
def U : MapPermission := ⟨(1 : UInt8) <<< 4⟩

instance : OrOp MapPermission := ⟨fun a b => ⟨a.bits ||| b.bits⟩⟩

end MapPermission

/-- `MapArea`: `data_frames` is the `BTreeMap<VirtPageNum, FrameTracker>` as an association
list, holding the ppn of each tracked frame. -/
structure MapArea where
  vpnRange : VPNRange
  dataFrames : List (VirtPageNum × PhysPageNum)
  mapType : MapType
  mapPerm : MapPermission

/-- `MemorySet`. -/
structure MemorySet where
  pageTable : PageTable
  areas : List MapArea

/-- `PhysPageNum::get_bytes_array()[..n].copy_from_slice(src)`. -/
def copyToFrame (ppn : PhysPageNum) (src : List UInt8) : KernelM Machine Unit :=
  modify fun m => { m with mem := m.mem.writeBytes ppn.base src }

namespace MapArea

/-- `MapArea::new`: the range runs from the page of `start_va` to the page after `end_va`,
and `VPNRange::new` panics if that is empty the wrong way round. -/
def new (startVa endVa : VirtAddr) (mapType : MapType) (mapPerm : MapPermission) :
    Except Panic MapArea := do
  let vpnRange ← VPNRange.new startVa.floor endVa.ceil
  pure ⟨vpnRange, [], mapType, mapPerm⟩

/-- `BTreeMap::insert`: the new frame replaces an older one for the same page, which is
returned. -/
def insertFrame (df : List (VirtPageNum × PhysPageNum)) (vpn : VirtPageNum)
    (ppn : PhysPageNum) : List (VirtPageNum × PhysPageNum) × Option PhysPageNum :=
  match df.lookup vpn with
  | some old => (df.map fun e => if e.1 = vpn then (vpn, ppn) else e, some old)
  | none => (df ++ [(vpn, ppn)], none)

/-- `MapArea::map_one`. A replaced `FrameTracker` is dropped, which deallocates its frame. -/
def mapOne (area : MapArea) (pt : PageTable) (vpn : VirtPageNum) :
    KernelM Machine (MapArea × PageTable) := do
  let (area, ppn) ← match area.mapType with
    | .identical => pure (area, (⟨vpn.val⟩ : PhysPageNum))
    | .framed => do
      let frame ← unwrap (← frameAlloc)
      let (df, old) := insertFrame area.dataFrames vpn frame
      if let some old := old then frameDealloc old
      pure ({ area with dataFrames := df }, frame)
  -- `PTEFlags::from_bits(map_perm.bits)`: every `u8` is a set of PTE flags
  let pt ← pt.map vpn ppn ⟨area.mapPerm.bits⟩
  pure (area, pt)

/-- `MapArea::map`: `map_one` for every page of the range, in order. -/
def map (area : MapArea) (pt : PageTable) : KernelM Machine (MapArea × PageTable) :=
  area.vpnRange.toList.foldlM (fun (acc : MapArea × PageTable) vpn => acc.1.mapOne acc.2 vpn)
    (area, pt)

/-- The `loop` of `MapArea::copy_data`, one page of `data` per iteration from `start`, until
`start` passes the end of `data`. The loop runs at most `data.len() / PAGE_SIZE + 1` times,
which is the `fuel` `copyData` gives it. -/
def copyDataLoop (pt : PageTable) (data : List UInt8) :
    Nat → Nat → VirtPageNum → KernelM Machine Unit
  | 0, _, _ => pure ()
  | fuel + 1, start, currentVpn => do
    let src ← slice data start (min data.length (start + pageSize))
    let pte ← unwrap (pt.translate (← get).mem currentVpn)
    copyToFrame pte.ppn src
    let start := start + pageSize
    if start ≥ data.length then return
    copyDataLoop pt data fuel start ⟨wrap (currentVpn.val + 1)⟩

/-- `MapArea::copy_data`: the bytes of `data` into the frames behind the area's pages, from
its first page on, through the page table. -/
def copyData (area : MapArea) (pt : PageTable) (data : List UInt8) : KernelM Machine Unit := do
  if area.mapType ≠ .framed then throw .notFramed
  copyDataLoop pt data (data.length / pageSize + 1) 0 area.vpnRange.l

/-- `MapArea::from_another`: the same range, type and permission, no frames yet. -/
def fromAnother (another : MapArea) : MapArea :=
  ⟨another.vpnRange, [], another.mapType, another.mapPerm⟩

end MapArea

namespace MemorySet

/-- `MemorySet::new_bare`. -/
def newBare : KernelM Machine MemorySet := do
  let pt ← PageTable.new
  pure ⟨pt, []⟩

/-- `MemorySet::token`. -/
def token (ms : MemorySet) : Nat := ms.pageTable.token

/-- `MemorySet::translate`. -/
def translate (ms : MemorySet) (mem : ByteMem) (vpn : VirtPageNum) : Option PageTableEntry :=
  ms.pageTable.translate mem vpn

/-- `MemorySet::push`: map the area, copy `data` into it if given, and record it. -/
def push (ms : MemorySet) (area : MapArea) (data : Option (List UInt8)) :
    KernelM Machine MemorySet := do
  let (area, pt) ← area.map ms.pageTable
  if let some data := data then area.copyData pt data
  pure ⟨pt, ms.areas ++ [area]⟩

/-- The order in which dropping a `MemorySet` drops its `FrameTracker`s: the page table's in
order, then each area's in page order (the order of its `BTreeMap`). -/
def dropOrder (ms : MemorySet) : List PhysPageNum :=
  ms.pageTable.frames ++ ms.areas.flatMap fun a =>
    (a.dataFrames.mergeSort fun x y => decide (x.1.val ≤ y.1.val)).map Prod.snd

/-- Dropping a `MemorySet`: each `FrameTracker` deallocates its frame. -/
def drop (ms : MemorySet) : KernelM Machine Unit :=
  ms.dropOrder.forM frameDealloc

/-- Dropping a space frees frames and writes no byte. -/
theorem drop_mem (ms : MemorySet) (M : ByteMem) :
    Returns (fun m => m.mem = M) ms.drop fun _ m => m.mem = M :=
  Returns.forM (fun ppn => frameDealloc_mem ppn M) ms.dropOrder

/-- `MemorySet::insert_framed_area`. -/
def insertFramedArea (ms : MemorySet) (startVa endVa : VirtAddr) (permission : MapPermission) :
    KernelM Machine MemorySet := do
  let area ← MapArea.new startVa endVa .framed permission
  ms.push area none

/-- `MemorySet::map_trampoline`: the trampoline page, outside every area. The conversions
to page numbers assert that both addresses are page aligned. -/
def mapTrampoline (strampoline : Nat) (ms : MemorySet) : KernelM Machine MemorySet := do
  let vpn ← VirtPageNum.ofVirtAddr (VirtAddr.ofUsize trampoline)
  let ppn ← PhysPageNum.ofPhysAddr (PhysAddr.ofUsize strampoline)
  let pt ← ms.pageTable.map vpn ppn (PTEFlags.R ||| PTEFlags.X)
  pure { ms with pageTable := pt }

end MemorySet

/-! ## ELF files -/

/-- What `from_elf` reads of a program header. -/
structure ProgramHeader where
  /-- `ph.get_type() == Type::Load`. -/
  isLoad : Bool
  virtualAddr : Nat
  memSize : Nat
  offset : Nat
  fileSize : Nat
  isRead : Bool
  isWrite : Bool
  isExecute : Bool
  deriving DecidableEq, Repr

/-- What `from_elf` reads of an ELF file. -/
structure ElfFile where
  magic : List UInt8
  entryPoint : Nat
  programHeaders : List ProgramHeader
  input : List UInt8
  deriving DecidableEq, Repr

/-- The permission of a loaded segment: `U`, and `R`, `W`, `X` as its flags say. -/
def ProgramHeader.mapPerm (ph : ProgramHeader) : MapPermission :=
  let p := MapPermission.U
  let p := if ph.isRead then p ||| MapPermission.R else p
  let p := if ph.isWrite then p ||| MapPermission.W else p
  if ph.isExecute then p ||| MapPermission.X else p

namespace MemorySet

/-- One iteration of the program-header loop of `from_elf`: a `PT_LOAD` segment becomes a
`Framed` area holding the file bytes from the page-aligned offset, and its end page is
remembered. -/
def loadSegment (elf : ElfFile) (acc : MemorySet × VirtPageNum) (ph : ProgramHeader) :
    KernelM Machine (MemorySet × VirtPageNum) := do
  if !ph.isLoad then return acc
  let startVa := VirtAddr.ofUsize ph.virtualAddr
  let endVa := VirtAddr.ofUsize (wrap (ph.virtualAddr + ph.memSize))
  let mapArea ← MapArea.new startVa endVa .framed ph.mapPerm
  let maxEndVpn := mapArea.vpnRange.r
  let align := ph.offset - ph.offset % 4096
  let data ← slice elf.input align (wrap (ph.offset + ph.fileSize))
  let ms ← acc.1.push mapArea (some data)
  pure (ms, maxEndVpn)

/-- `MemorySet::from_elf`: the space, the heap start (end of the last loaded segment), the
user stack top and the entry point. -/
def fromElf (strampoline : Nat) (elf : ElfFile) : KernelM Machine (MemorySet × Nat × Nat × Nat) :=
  do
  let ms ← newBare
  let ms ← ms.mapTrampoline strampoline
  if elf.magic ≠ [0x7f, 0x45, 0x4c, 0x46] then throw .invalidElf
  let (ms, maxEndVpn) ← elf.programHeaders.foldlM (loadSegment elf) (ms, ⟨0⟩)
  let maxEndVa := VirtAddr.ofVirtPageNum maxEndVpn
  let userStackTop := trapframe - userStackSize
  let userStackBottom := userStackTop - userStackSize * 2
  let ms ← ms.push (← MapArea.new (VirtAddr.ofUsize userStackBottom)
    (VirtAddr.ofUsize userStackTop) .framed (MapPermission.R ||| MapPermission.W ||| MapPermission.U))
    none
  let ms ← ms.push (← MapArea.new (VirtAddr.ofUsize trapframe) (VirtAddr.ofUsize trampoline)
    .framed (MapPermission.R ||| MapPermission.W)) none
  pure (ms, maxEndVa.toUsize, userStackTop, elf.entryPoint)

/-- Every `from_elf` that returns puts the user stack top at `TRAPFRAME - USER_STACK_SIZE`. -/
theorem fromElf_userStackTop (strampoline : Nat) (elf : ElfFile) :
    Returns (fun _ => True) (fromElf strampoline elf) fun r _ =>
      r.2.2.1 = trapframe - userStackSize := by
  unfold fromElf
  refine Returns.bind Returns.any fun _ => Returns.bind Returns.any fun _ => ?_
  simp only []
  split
  · -- a file without the ELF magic panics
    exact Returns.bind (Returns.throw' : Returns _ _ fun _ _ => False) fun _ _ _ _ h => h.elim
  · refine Returns.bind Returns.any fun _ => Returns.bind Returns.any fun _ => ?_
    refine Returns.bind Returns.any fun _ => Returns.bind Returns.any fun _ => ?_
    refine Returns.bind Returns.any fun _ => ?_
    exact Returns.pure' fun _ _ => rfl

/-- The copy loop of `from_existed_user` for one area: each page's bytes from the frame
behind it in `user` to the frame behind it in the new space. -/
def copyPage (user : MemorySet) (ms : MemorySet) (vpn : VirtPageNum) : KernelM Machine Unit := do
  let mem := (← get).mem
  let srcPpn := (← unwrap (user.translate mem vpn)).ppn
  let dstPpn := (← unwrap (ms.translate mem vpn)).ppn
  copyToFrame dstPpn (mem.bytes srcPpn.base pageSize)

/-- One area of `from_existed_user`: a fresh copy of it is pushed, then its bytes copied. -/
def copyArea (user : MemorySet) (ms : MemorySet) (area : MapArea) : KernelM Machine MemorySet := do
  let ms ← ms.push (MapArea.fromAnother area) none
  area.vpnRange.toList.forM (copyPage user ms)
  pure ms

/-- `MemorySet::from_existed_user`. -/
def fromExistedUser (strampoline : Nat) (user : MemorySet) : KernelM Machine MemorySet := do
  let ms ← newBare
  let ms ← ms.mapTrampoline strampoline
  user.areas.foldlM (copyArea user) ms

end MemorySet

end NaiveOs
