import Mathlib
import NaiveOs.Mm.FrameAllocator

/-!
# Trap frames (`trap/context.rs`)

`TrapFrame` is `#[repr(C)]`: the 32 general registers, then `sstatus`, `sepc`, `kernel_satp`,
`kernel_sp` and `trap_handler`, one 8-byte word each, 296 bytes in all. The kernel reaches a
process's trap frame through `PhysPageNum::get_mut`, so the model keeps it as bytes at the start
of its frame: `TrapFrame.read` is the value there, and `copy` and `setField` are the assignments
`*dst = *src` and `tf.field = v`, which write those bytes.

A copy gives the source's value (`read_copy`), a store to one field changes that field
alone, to the value cut to 64 bits (`read_writeLE_x`, `read_writeLE_kernelSp`), and a whole
trap frame stored by `*ptr = tf` reads back as itself, each word cut to 64 bits
(`read_write`).
-/

namespace NaiveOs

/-- `TrapFrame`. -/
structure TrapFrame where
  x : List Nat
  sstatus : Nat
  sepc : Nat
  kernelSatp : Nat
  kernelSp : Nat
  trapHandler : Nat
  deriving DecidableEq, Repr

namespace TrapFrame

/-- `size_of::<TrapFrame>()`. -/
def size : Nat := 296

def sstatusOffset : Nat := 256
def sepcOffset : Nat := 264
def kernelSatpOffset : Nat := 272
def kernelSpOffset : Nat := 280
def trapHandlerOffset : Nat := 288

/-- The trap frame whose first byte is at `a`. -/
def read (mem : ByteMem) (a : Nat) : TrapFrame where
  x := (List.range 32).map fun i => mem.readLE (a + 8 * i) 8
  sstatus := mem.readLE (a + sstatusOffset) 8
  sepc := mem.readLE (a + sepcOffset) 8
  kernelSatp := mem.readLE (a + kernelSatpOffset) 8
  kernelSp := mem.readLE (a + kernelSpOffset) 8
  trapHandler := mem.readLE (a + trapHandlerOffset) 8

/-- `*dst = *src` on the trap frames at the start of two frames. -/
def copy (dst src : PhysPageNum) : KernelM Machine Unit :=
  modify fun m => { m with mem := m.mem.writeBytes dst.base (m.mem.bytes src.base size) }

/-- An assignment to the 8-byte field at offset `off` of the trap frame in frame `ppn`. -/
def setField (ppn : PhysPageNum) (off v : Nat) : KernelM Machine Unit :=
  modify fun m => { m with mem := m.mem.writeLE (ppn.base + off) 8 v }

/-- `tf.x[i] = v`. -/
def setX (ppn : PhysPageNum) (i v : Nat) : KernelM Machine Unit :=
  setField ppn (8 * i) v

/-- `tf.kernel_sp = v`. -/
def setKernelSp (ppn : PhysPageNum) (v : Nat) : KernelM Machine Unit :=
  setField ppn kernelSpOffset v

/-- The 37 words of a trap frame, in memory order. -/
def words (tf : TrapFrame) : List Nat :=
  tf.x ++ [tf.sstatus, tf.sepc, tf.kernelSatp, tf.kernelSp, tf.trapHandler]

/-- `*(ppn.get_mut() as *mut TrapFrame) = tf`, for the trap frame whose first byte is at `a`. -/
def write (tf : TrapFrame) (mem : ByteMem) (a : Nat) : ByteMem := mem.writeWords a 8 tf.words

/-- `sstatus.set_spp(SPP::User)`: the previous privilege, bit 8, becomes user. -/
def setSppUser (sstatus : Nat) : Nat := sstatus &&& (2 ^ 64 - 1 - 2 ^ 8)

/-- `TrapFrame::app_init_context`, from the value `sstatus` of `sstatus::read()`: every register
zero but `sp`. -/
def appInitContext (sstatus entry sp kernelSatp kernelSp trapHandler : Nat) : TrapFrame where
  x := (List.replicate 32 0).set 2 sp
  sstatus := setSppUser sstatus
  sepc := entry
  kernelSatp := kernelSatp
  kernelSp := kernelSp
  trapHandler := trapHandler

/-! ## Reading a trap frame back -/

/-- A trap frame is determined by its bytes. -/
theorem read_congr {mem mem' : ByteMem} {a b : Nat}
    (h : ∀ i < size, mem (a + i) = mem' (b + i)) : read mem a = read mem' b := by
  -- each field is a word inside the 296 bytes
  have hw : ∀ off, off + 8 ≤ size → mem.readLE (a + off) 8 = mem'.readLE (b + off) 8 :=
    fun off hoff => ByteMem.readLE_congr_at fun i hi => by
      rw [Nat.add_assoc, Nat.add_assoc]
      exact h (off + i) (by omega)
  simp only [read, TrapFrame.mk.injEq]
  refine ⟨List.map_congr_left fun i hi => hw _ ?_, hw _ (by decide), hw _ (by decide),
    hw _ (by decide), hw _ (by decide), hw _ (by decide)⟩
  have := List.mem_range.mp hi
  simp only [size]
  omega

/-- `*dst = *src` gives the destination the source's value. -/
theorem read_copy (mem : ByteMem) (a b : Nat) :
    read (mem.writeBytes a (mem.bytes b size)) a = read mem b :=
  read_congr fun i hi => by
    rw [ByteMem.writeBytes_apply_inside _ _ _ (by simpa using hi), ByteMem.getElem_bytes]

/-- Words at distinct 8-aligned offsets of a frame do not overlap. -/
theorem readLE_writeLE_word (mem : ByteMem) (a : Nat) {off off' : Nat} (hoff : off % 8 = 0)
    (hoff' : off' % 8 = 0) (v : Nat) :
    (mem.writeLE (a + off) 8 v).readLE (a + off') 8 =
      if off' = off then v % 2 ^ 64 else mem.readLE (a + off') 8 := by
  split_ifs with h
  · subst h
    rw [ByteMem.readLE_writeLE]
    norm_num
  · exact ByteMem.readLE_store_of_disjoint mem _ (by omega)

/-- `tf.x[i] = v` sets register `i` to `v` cut to 64 bits. -/
theorem read_writeLE_x (mem : ByteMem) (a : Nat) {i : Nat} (hi : i < 32) (v : Nat) :
    read (mem.writeLE (a + 8 * i) 8 v) a =
      { read mem a with x := (read mem a).x.set i (v % 2 ^ 64) } := by
  have hw := fun off (hoff : off % 8 = 0) =>
    readLE_writeLE_word mem a (show 8 * i % 8 = 0 by omega) hoff v
  simp only [read, sstatusOffset, sepcOffset, kernelSatpOffset, kernelSpOffset,
    trapHandlerOffset, TrapFrame.mk.injEq]
  refine ⟨?_, ?_, ?_, ?_, ?_, ?_⟩
  · refine List.ext_getElem (by simp) fun j h₁ h₂ => ?_
    simp only [List.getElem_map, List.getElem_range, List.getElem_set]
    rw [hw (8 * j) (by omega)]
    by_cases hij : i = j
    · simp [hij]
    · rw [if_neg (by omega), if_neg hij]
  all_goals rw [hw _ (by decide), if_neg (by omega)]

/-- `tf.kernel_sp = v` sets `kernel_sp` to `v` cut to 64 bits. -/
theorem read_writeLE_kernelSp (mem : ByteMem) (a v : Nat) :
    read (mem.writeLE (a + kernelSpOffset) 8 v) a =
      { read mem a with kernelSp := v % 2 ^ 64 } := by
  have hw := fun off (hoff : off % 8 = 0) =>
    readLE_writeLE_word mem a (show kernelSpOffset % 8 = 0 by decide) hoff v
  simp only [read, TrapFrame.mk.injEq]
  refine ⟨List.map_congr_left fun j hj => ?_, ?_, ?_, ?_, ?_, ?_⟩
  · have := List.mem_range.mp hj
    rw [hw (8 * j) (by omega), if_neg (by simp only [kernelSpOffset]; omega)]
  all_goals rw [hw _ (by decide)]
  all_goals simp [sstatusOffset, sepcOffset, kernelSatpOffset, kernelSpOffset, trapHandlerOffset]

/-- A stored trap frame reads back as itself, each word cut to 64 bits. -/
theorem read_write (tf : TrapFrame) (mem : ByteMem) (a : Nat) (hx : tf.x.length = 32) :
    read (tf.write mem a) a = ⟨tf.x.map (· % 2 ^ 64), tf.sstatus % 2 ^ 64, tf.sepc % 2 ^ 64,
      tf.kernelSatp % 2 ^ 64, tf.kernelSp % 2 ^ 64, tf.trapHandler % 2 ^ 64⟩ := by
  have hlen : tf.words.length = 37 := by simp [words, hx]
  -- word `j` of the frame is at offset `8 * j`
  have hw : ∀ j (hj : j < 37) off, off = 8 * j →
      (tf.write mem a).readLE (a + off) 8 = tf.words[j] % 2 ^ 64 := by
    rintro j hj _ rfl
    exact ByteMem.readLE_writeWords mem a 8 tf.words (by omega)
  simp only [read, sstatusOffset, sepcOffset, kernelSatpOffset, kernelSpOffset,
    trapHandlerOffset, TrapFrame.mk.injEq]
  refine ⟨List.ext_getElem (by simp [hx]) fun j h₁ h₂ => ?_, ?_, ?_, ?_, ?_, ?_⟩
  · have hj : j < 32 := by simpa using h₁
    simp only [List.getElem_map, List.getElem_range]
    rw [hw j (by omega) _ rfl]
    simp [words, List.getElem_append_left (show j < tf.x.length by omega)]
  · rw [hw 32 (by norm_num) _ rfl]
    simp [words, hx]
  · rw [hw 33 (by norm_num) _ rfl]
    simp [words, hx]
  · rw [hw 34 (by norm_num) _ rfl]
    simp [words, hx]
  · rw [hw 35 (by norm_num) _ rfl]
    simp [words, hx]
  · rw [hw 36 (by norm_num) _ rfl]
    simp [words, hx]

/-- The trap frame `app_init_context` builds, once stored, has the stack pointer in `x[2]`. -/
theorem read_write_appInitContext (mem : ByteMem) (a sstatus entry sp kernelSatp kernelSp
    trapHandler : Nat) :
    (read ((appInitContext sstatus entry sp kernelSatp kernelSp trapHandler).write mem a) a).x[2]? =
      some (sp % 2 ^ 64) := by
  rw [read_write _ _ _ (by simp [appInitContext])]
  simp [appInitContext]

end TrapFrame

end NaiveOs
