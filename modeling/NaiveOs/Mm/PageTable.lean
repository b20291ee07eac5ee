import NaiveOs.Mm.FrameAllocator

/-!
# Sv39 page tables (`mm/page_table.rs`)

A page table is a three-level radix tree of 4096-byte frames holding 512 eight-byte
entries each. The tree lives in physical memory: `find_pte_create` reads and writes
entries through `get_pte_array`, allocating a zeroed frame for every missing
intermediate table, and `find_pte` stops at the first invalid entry. An entry packs a
page number and eight flag bits as `ppn << 10 | flags`.

Entries are read and written as little-endian words of the byte memory, so a write to
one entry is seen by exactly the reads of that entry (`entryAt_writeLE_same`,
`entryAt_writeLE_other`) and the zeroing of a fresh frame by exactly the reads in it.

The `PageTable` value itself holds only the root and the list of frames it allocated
(`frames`, the `FrameTracker`s that keep them alive); everything else is in memory.
-/

namespace NaiveOs

/-! ## Entries -/

/-- `PTEFlags`: the eight flag bits of an entry. -/
structure PTEFlags where
  bits : UInt8
  deriving DecidableEq, Repr

namespace PTEFlags

def V : PTEFlags := ⟨(1 : UInt8) <<< 0⟩
def R : PTEFlags := ⟨(1 : UInt8) <<< 1⟩
def W : PTEFlags := ⟨(1 : UInt8) <<< 2⟩
def X : PTEFlags := ⟨(1 : UInt8) <<< 3⟩
def U : PTEFlags := ⟨(1 : UInt8) <<< 4⟩
def G : PTEFlags := ⟨(1 : UInt8) <<< 5⟩
def A : PTEFlags := ⟨(1 : UInt8) <<< 6⟩
def D : PTEFlags := ⟨(1 : UInt8) <<< 7⟩
def empty : PTEFlags := ⟨0⟩

instance : OrOp PTEFlags := ⟨fun a b => ⟨a.bits ||| b.bits⟩⟩
instance : AndOp PTEFlags := ⟨fun a b => ⟨a.bits &&& b.bits⟩⟩

@[simp] theorem or_bits (a b : PTEFlags) : (a ||| b).bits = a.bits ||| b.bits := rfl
@[simp] theorem and_bits (a b : PTEFlags) : (a &&& b).bits = a.bits &&& b.bits := rfl

/-- `PTEFlags::from_bits`: all eight bits of a `u8` are flags, so it never fails. -/
def fromBits (bits : UInt8) : Option PTEFlags := some ⟨bits⟩

end PTEFlags

/-- `PageTableEntry`: the raw `usize` of an entry. -/
structure PageTableEntry where
  bits : Nat
  deriving DecidableEq, Repr

namespace PageTableEntry

/-- `PageTableEntry::new`: `ppn.0 << 10 | flags.bits as usize`. -/
def new (ppn : PhysPageNum) (flags : PTEFlags) : PageTableEntry :=
  ⟨wrap (ppn.val <<< 10) ||| flags.bits.toNat⟩

/-- `PageTableEntry::empty`. -/
def empty : PageTableEntry := ⟨0⟩

/-- `PageTableEntry::ppn`: bits 10 to 53. -/
def ppn (pte : PageTableEntry) : PhysPageNum :=
  PhysPageNum.ofUsize ((pte.bits >>> 10) &&& ((1 <<< 44) - 1))

theorem ppn_val_lt (pte : PageTableEntry) : pte.ppn.val < 2 ^ 44 := by
  simpa [ppn] using Nat.mod_lt _ (by norm_num : 0 < 2 ^ 44)

/-- `PageTableEntry::flags`: `PTEFlags::from_bits(self.bits as u8).unwrap()`. -/
def flags (pte : PageTableEntry) : PTEFlags := ⟨UInt8.ofNat pte.bits⟩

/-- `PageTableEntry::is_valid`. -/
def isValid (pte : PageTableEntry) : Bool := (pte.flags &&& PTEFlags.V) != PTEFlags.empty

/-- `PageTableEntry::readable`. -/
def readable (pte : PageTableEntry) : Bool := (pte.flags &&& PTEFlags.R) != PTEFlags.empty

/-- `PageTableEntry::writable`. -/
def writable (pte : PageTableEntry) : Bool := (pte.flags &&& PTEFlags.W) != PTEFlags.empty

/-- `PageTableEntry::executable`. -/
def executable (pte : PageTableEntry) : Bool := (pte.flags &&& PTEFlags.X) != PTEFlags.empty

/-- For a page number below `2 ^ 44` the packing is `ppn * 1024 + flags`. -/
theorem new_bits {ppn : PhysPageNum} (h : ppn.val < 2 ^ 44) (flags : PTEFlags) :
    (new ppn flags).bits = ppn.val * 1024 + flags.bits.toNat := by
  have hf : flags.bits.toNat < 2 ^ 10 := by have := flags.bits.toNat_lt; omega
  simp only [new]
  rw [wrap_of_lt (by rw [Nat.shiftLeft_eq]; omega), ← Nat.shiftLeft_add_eq_or_of_lt hf,
    Nat.shiftLeft_eq]

theorem new_bits_lt {ppn : PhysPageNum} (h : ppn.val < 2 ^ 44) (flags : PTEFlags) :
    (new ppn flags).bits < 2 ^ 64 := by
  have := flags.bits.toNat_lt
  rw [new_bits h]
  omega

@[simp] theorem new_ppn {ppn : PhysPageNum} (h : ppn.val < 2 ^ 44) (flags : PTEFlags) :
    (new ppn flags).ppn = ppn := by
  have hf := flags.bits.toNat_lt
  have hdiv : (ppn.val * 1024 + flags.bits.toNat) / 1024 = ppn.val := by omega
  simp only [PageTableEntry.ppn, new_bits h, Nat.shiftRight_eq_div_pow, Nat.shiftLeft_eq,
    Nat.one_mul, Nat.and_two_pow_sub_one_eq_mod]
  rw [show (2 : Nat) ^ 10 = 1024 by norm_num, hdiv, Nat.mod_eq_of_lt h,
    PhysPageNum.ofUsize_of_lt _ h]

@[simp] theorem new_flags {ppn : PhysPageNum} (h : ppn.val < 2 ^ 44) (flags : PTEFlags) :
    (new ppn flags).flags = flags := by
  have hf := flags.bits.toNat_lt
  simp only [PageTableEntry.flags, new_bits h]
  congr 1
  apply UInt8.toNat_inj.mp
  rw [UInt8.toNat_ofNat']
  omega

/-- An entry is valid exactly when bit 0 is set. -/
theorem isValid_eq (pte : PageTableEntry) : pte.isValid = (pte.bits % 2 == 1) := by
  have hbit : (UInt8.ofNat pte.bits &&& 1).toNat = pte.bits % 2 := by
    rw [UInt8.toNat_and, UInt8.toNat_ofNat']
    simp [Nat.and_one_is_mod]
  have key : (pte.flags &&& PTEFlags.V) = PTEFlags.empty ↔ pte.bits % 2 = 0 := by
    show PTEFlags.mk (UInt8.ofNat pte.bits &&& 1) = PTEFlags.mk 0 ↔ _
    rw [PTEFlags.mk.injEq, ← UInt8.toNat_inj, hbit]
    simp
  unfold isValid
  rcases Nat.mod_two_eq_zero_or_one pte.bits with h | h
  · simp [key.mpr h, h]
  · have hne : (pte.flags &&& PTEFlags.V) ≠ PTEFlags.empty := fun he => by
      have := key.mp he
      omega
    simp [hne, h]

@[simp] theorem empty_isValid : empty.isValid = false := by
  simp [isValid_eq, empty]

theorem new_isValid_of_V {ppn : PhysPageNum} (h : ppn.val < 2 ^ 44) (flags : PTEFlags) :
    (new ppn (flags ||| PTEFlags.V)).isValid = true := by
  rw [isValid_eq, new_bits h]
  have hodd : (flags ||| PTEFlags.V).bits.toNat % 2 = 1 := by
    simp [PTEFlags.V, UInt8.toNat_or, Nat.or_mod_two_eq_one]
  simp only [beq_iff_eq]
  omega

/-- The entry `find_pte_create` links a new table with is valid. -/
theorem new_V_isValid {ppn : PhysPageNum} (h : ppn.val < 2 ^ 44) :
    (new ppn PTEFlags.V).isValid = true := by
  have hV : PTEFlags.empty ||| PTEFlags.V = PTEFlags.V := by decide
  rw [← hV]
  exact new_isValid_of_V h PTEFlags.empty

end PageTableEntry

/-! ## Entries in physical memory -/

/-- `&ppn.get_pte_array()[idx]`: the address of entry `idx` of the table frame `ppn`. The
indexes come from `VirtPageNum::indexes`, masked to nine bits, so the slice index is always
in bounds. -/
def PhysPageNum.pteAddr (ppn : PhysPageNum) (idx : Nat) : Nat := ppn.base + 8 * idx

/-- Read the entry at a physical address (`*pte`). -/
def readPte (mem : ByteMem) (addr : Nat) : PageTableEntry := ⟨mem.readLE addr 8⟩

/-- Store an entry at a physical address (`*pte = entry`). -/
def writePte (addr : Nat) (pte : PageTableEntry) : KernelM Machine Unit :=
  modify fun m => { m with mem := m.mem.writeLE addr 8 pte.bits }

/-- Entry `idx` of the table frame `ppn`. -/
def entryAt (mem : ByteMem) (ppn : PhysPageNum) (idx : Nat) : PageTableEntry :=
  readPte mem (ppn.pteAddr idx)

theorem pteAddr_eq {ppn : PhysPageNum} (h : ppn.val < 2 ^ 44) (idx : Nat) :
    ppn.pteAddr idx = ppn.val * 4096 + 8 * idx := by
  rw [PhysPageNum.pteAddr, PhysPageNum.base_eq h]

/-- Writing an entry is seen by reading it back. -/
theorem readPte_writeLE_same (mem : ByteMem) (addr : Nat) {pte : PageTableEntry}
    (h : pte.bits < 2 ^ 64) : readPte (mem.writeLE addr 8 pte.bits) addr = pte := by
  simp only [readPte, ByteMem.readLE_writeLE]
  rw [Nat.mod_eq_of_lt (by norm_num; omega)]

/-- Entries of one frame occupy disjoint words, and different frames disjoint pages. -/
theorem pteAddr_disjoint {p q : PhysPageNum} (hp : p.val < 2 ^ 44) (hq : q.val < 2 ^ 44)
    {i j : Nat} (hi : i < 512) (hj : j < 512) (hne : p ≠ q ∨ i ≠ j) :
    p.pteAddr i + 8 ≤ q.pteAddr j ∨ q.pteAddr j + 8 ≤ p.pteAddr i := by
  rw [pteAddr_eq hp, pteAddr_eq hq]
  have hpq : p.val ≠ q.val ∨ i ≠ j := by
    rcases hne with h | h
    · exact .inl fun he => h (by cases p; cases q; simp_all)
    · exact .inr h
  omega

theorem entryAt_writeLE_same (mem : ByteMem) (p : PhysPageNum) (i : Nat)
    {pte : PageTableEntry} (h : pte.bits < 2 ^ 64) :
    entryAt (mem.writeLE (p.pteAddr i) 8 pte.bits) p i = pte :=
  readPte_writeLE_same mem _ h

theorem entryAt_writeLE_other (mem : ByteMem) {p q : PhysPageNum} (hp : p.val < 2 ^ 44)
    (hq : q.val < 2 ^ 44) {i j : Nat} (hi : i < 512) (hj : j < 512) (hne : p ≠ q ∨ i ≠ j)
    (v : Nat) : entryAt (mem.writeLE (p.pteAddr i) 8 v) q j = entryAt mem q j := by
  simp only [entryAt, readPte, ByteMem.writeLE]
  rw [ByteMem.readLE_store_of_disjoint]
  rcases pteAddr_disjoint hp hq hi hj hne with h | h
  · exact .inr h
  · exact .inl h

/-- Writing an entry writes only the table's frame. -/
theorem step_writeLE (m : Machine) {p : PhysPageNum} (hp : p.val < 2 ^ 44) {i : Nat}
    (hi : i < 512) (v : Nat) :
    Machine.Step [p] m { m with mem := m.mem.writeLE (p.pteAddr i) 8 v } where
  owns _ h := h
  mem a ha := by
    have hne : a / 4096 ≠ p.val := ha p (List.mem_singleton_self p)
    simp only [ByteMem.writeLE]
    refine ByteMem.store_apply_outside m.mem _ ?_
    rw [pteAddr_eq hp]
    omega

/-- Zeroing a frame clears every entry in it. -/
theorem entryAt_fill_same (mem : ByteMem) (p : PhysPageNum) {i : Nat} (hi : i < 512) :
    entryAt (mem.fill p.base pageSize 0) p i = PageTableEntry.empty := by
  simp only [entryAt, readPte, PageTableEntry.empty, PageTableEntry.mk.injEq]
  refine ByteMem.readLE_fill_zero mem ⟨?_, ?_⟩ <;>
    simp only [PhysPageNum.pteAddr, pageSize] <;> omega

/-- Zeroing a frame leaves the entries of every other frame alone. -/
theorem entryAt_fill_other (mem : ByteMem) {p q : PhysPageNum} (hp : p.val < 2 ^ 44)
    (hq : q.val < 2 ^ 44) (hne : p ≠ q) {j : Nat} (hj : j < 512) :
    entryAt (mem.fill p.base pageSize 0) q j = entryAt mem q j := by
  simp only [entryAt, readPte, ByteMem.fill]
  rw [ByteMem.readLE_store_of_disjoint]
  have hpq : p.val ≠ q.val := fun he => hne (by cases p; cases q; simp_all)
  rw [pteAddr_eq hq, PhysPageNum.base_eq hp]
  simp only [pageSize]
  omega

/-! ## The page table -/

/-- `PageTable`: the root frame and the frames it owns. -/
structure PageTable where
  rootPpn : PhysPageNum
  frames : List PhysPageNum

namespace PageTable

/-- `PageTable::new`. -/
def new : KernelM Machine PageTable := do
  let frame ← unwrap (← frameAlloc)
  pure ⟨frame, [frame]⟩

/-- `PageTable::from_token`: a temporary view of the table a `satp` value names. -/
def fromToken (satp : Nat) : PageTable :=
  ⟨PhysPageNum.ofUsize (satp &&& ((1 <<< 44) - 1)), []⟩

/-- `PageTable::token`. -/
def token (pt : PageTable) : Nat := wrap (8 <<< 60) ||| pt.rootPpn.val

/-- One directory level of `find_pte_create`: entry `idx` of the table `ppn` is made valid,
allocating a zeroed table behind it when it is not, and the table it points to is returned. -/
def findPteCreateStep (pt : PageTable) (ppn : PhysPageNum) (idx : Nat) :
    KernelM Machine (PhysPageNum × PageTable) := do
  let pte := ppn.pteAddr idx
  let pt ← if !(readPte (← get).mem pte).isValid then do
      let frame ← unwrap (← frameAlloc)
      writePte pte (PageTableEntry.new frame PTEFlags.V)
      pure { pt with frames := pt.frames ++ [frame] }
    else pure pt
  pure ((readPte (← get).mem pte).ppn, pt)

/-- The loop of `find_pte_create` over `vpn.indexes().iter().enumerate()`: at `i == 2` it
returns the entry, before that it descends one level. -/
def findPteCreateLoop : PageTable → List Nat → Nat → PhysPageNum →
    KernelM Machine (Option Nat × PageTable)
  | pt, [], _, _ => pure (none, pt)
  | pt, idx :: rest, i, ppn => do
    if i = 2 then return (some (ppn.pteAddr idx), pt)
    let (next, pt) ← findPteCreateStep pt ppn idx
    findPteCreateLoop pt rest (i + 1) next

/-- `PageTable::find_pte_create`: the address of the leaf entry, creating tables. -/
def findPteCreate (pt : PageTable) (vpn : VirtPageNum) :
    KernelM Machine (Option Nat × PageTable) :=
  findPteCreateLoop pt vpn.indexes 0 pt.rootPpn

/-- The loop of `find_pte`: like `find_pte_create`, but an invalid entry ends the walk
with `None`. -/
def findPteLoop (mem : ByteMem) : List Nat → Nat → PhysPageNum → Option Nat
  | [], _, _ => none
  | idx :: rest, i, ppn =>
    let pte := ppn.pteAddr idx
    if i = 2 then some pte
    else if !(readPte mem pte).isValid then none
    else findPteLoop mem rest (i + 1) (readPte mem pte).ppn

/-- `PageTable::find_pte`: the address of the leaf entry, if the walk reaches it. -/
def findPte (pt : PageTable) (mem : ByteMem) (vpn : VirtPageNum) : Option Nat :=
  findPteLoop mem vpn.indexes 0 pt.rootPpn

/-- `PageTable::map`. -/
def map (pt : PageTable) (vpn : VirtPageNum) (ppn : PhysPageNum) (flags : PTEFlags) :
    KernelM Machine PageTable := do
  let (pte, pt) ← pt.findPteCreate vpn
  let pte ← unwrap pte
  if (readPte (← get).mem pte).isValid then throw (.mappedBeforeMapping vpn.val)
  writePte pte (PageTableEntry.new ppn (flags ||| PTEFlags.V))
  pure pt

/-- `PageTable::is_mapped`: creates the tables on the way, like `map`. -/
def isMapped (pt : PageTable) (vpn : VirtPageNum) : KernelM Machine (Bool × PageTable) := do
  let (pte, pt) ← pt.findPteCreate vpn
  let pte ← unwrap pte
  pure ((readPte (← get).mem pte).isValid, pt)

/-- `PageTable::unmap`. -/
def unmap (pt : PageTable) (vpn : VirtPageNum) : KernelM Machine Unit := do
  let pte ← unwrap (pt.findPte (← get).mem vpn)
  if !(readPte (← get).mem pte).isValid then throw (.invalidBeforeUnmapping vpn.val)
  writePte pte PageTableEntry.empty

/-- `PageTable::translate`. -/
def translate (pt : PageTable) (mem : ByteMem) (vpn : VirtPageNum) : Option PageTableEntry :=
  (pt.findPte mem vpn).map (readPte mem)

/-- `PageTable::translate_va`. -/
def translateVa (pt : PageTable) (mem : ByteMem) (va : VirtAddr) : Option PhysAddr :=
  (pt.findPte mem va.floor).map fun pte =>
    let alignedPa := PhysAddr.ofPhysPageNum (readPte mem pte).ppn
    PhysAddr.ofUsize (wrap (alignedPa.val + va.pageOffset))

end PageTable

end NaiveOs
