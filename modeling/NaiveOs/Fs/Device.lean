import Mathlib
import NaiveOs.Basic
import NaiveOs.Lib.Triple

/-!
# Byte I/O over a block device (`fs/util.rs`, `fs/dev/mod.rs`)

`Device::read_at` and `write_at` are implemented once for every `BlockDevice`: a `BlockIter`
cuts the byte range `[offset, offset + len)` at the block boundaries, and each piece is read or
written as a whole block when it covers one, and through the local 1 KiB `block_buf` (read,
patch, write back) when it does not. The first block the device refuses ends the loop with
`Ok` of the bytes done so far (`try0!`).

A device is a structure of its block size and its two calls over a state `σ`; `read_at` gives
the contents of the `&mut [u8]` after the call, which keeps its length. `Lawful d N bytes` is a
device of `N` blocks whose contents in state `s` are `bytes s`: a block call below `N` copies
exactly that one block, and a call from block `N` on fails. For such a device with blocks of at most 1 KiB

- the iterator's pieces cut the range in order into non-empty pieces inside one block each
  (`ranges_partition`);
- `read_at` returns `m = min len (N * 2 ^ k - offset)`, fills the first `m` bytes of the buffer
  from the device and keeps the rest (`readLoop_spec`);
- `write_at` returns the same `m` and changes the device's bytes `[offset, offset + m)` only,
  to the buffer's (`writeLoop_spec`);

and `device_io_exact` puts the three together. The test device of `fs/dev/mod.rs` is lawful
(`testDevice_lawful`), and the module's tests run on it.

Arithmetic that the source cannot overflow is written on `Nat`; the one sum that can,
`offset + buf.len()`, is wrapped.
-/

namespace NaiveOs

/-- `1usize << log2`, the size of a block: a release-mode shift takes its amount modulo 64. -/
def blockBytes (log2 : Nat) : Nat := 2 ^ (log2 % 64)

theorem blockBytes_of_lt {log2 : Nat} (h : log2 < 64) : blockBytes log2 = 2 ^ log2 := by
  rw [blockBytes, Nat.mod_eq_of_lt h]

theorem blockBytes_pos (log2 : Nat) : 0 < blockBytes log2 := Nat.two_pow_pos _

/-- `BlockRange`: the bytes `[begin, end)` of block `block`. -/
structure BlockRange where
  block : Nat
  begin : Nat
  «end» : Nat
  blockSizeLog2 : Nat
  deriving DecidableEq, Repr

namespace BlockRange

/-- `BlockRange::len`; the iterator's ranges have `begin < end`. -/
def len (r : BlockRange) : Nat := r.«end» - r.begin

/-- `BlockRange::is_full`. -/
def isFull (r : BlockRange) : Bool := r.len == blockBytes r.blockSizeLog2

/-- `BlockRange::origin_begin`. -/
def originBegin (r : BlockRange) : Nat := r.block * blockBytes r.blockSizeLog2 + r.begin

/-- `BlockRange::origin_end`. -/
def originEnd (r : BlockRange) : Nat := r.block * blockBytes r.blockSizeLog2 + r.«end»

end BlockRange

/-- `BlockIter`: the pieces of `[begin, end)` inside one block each. -/
structure BlockIter where
  begin : Nat
  «end» : Nat
  blockSizeLog2 : Nat
  deriving DecidableEq, Repr

namespace BlockIter

/-- `<BlockIter as Iterator>::next`. -/
def next (it : BlockIter) : Option (BlockRange × BlockIter) :=
  if it.begin ≥ it.«end» then none
  else
    let blockSize := blockBytes it.blockSizeLog2
    let block := it.begin / blockSize
    let begin := it.begin % blockSize
    let «end» := if block = it.«end» / blockSize then it.«end» % blockSize else blockSize
    some (⟨block, begin, «end», it.blockSizeLog2⟩, { it with begin := it.begin + («end» - begin) })

/-- The ranges `next` yields, for at most `fuel` calls. -/
def rangesFrom : Nat → BlockIter → List BlockRange
  | 0, _ => []
  | fuel + 1, it =>
    match it.next with
    | none => []
    | some (r, it') => r :: rangesFrom fuel it'

/-- The ranges a `for range in iter` loop visits: each call moves `begin` forward, so
`end - begin` calls reach the end (`ranges_partition`). -/
def ranges (it : BlockIter) : List BlockRange := rangesFrom (it.«end» - it.begin) it

/-- What one call of `next` does: the range it yields starts at `begin`, is non-empty and lies
inside one block, and the iterator moves to the range's end. -/
structure Yields (it : BlockIter) (r : BlockRange) (it' : BlockIter) : Prop where
  lt : it.begin < it.«end»
  log2 : r.blockSizeLog2 = it.blockSizeLog2
  originBegin : r.originBegin = it.begin
  nonempty : r.begin < r.«end»
  le_block : r.«end» ≤ blockBytes it.blockSizeLog2
  le_end : r.originEnd ≤ it.«end»
  next : it' = { it with begin := r.originEnd }

theorem next_eq_none_iff {it : BlockIter} : it.next = none ↔ it.«end» ≤ it.begin := by
  unfold next
  split <;> simp_all

theorem yields_of_next {it : BlockIter} {r : BlockRange} {it' : BlockIter}
    (h : it.next = some (r, it')) : Yields it r it' := by
  unfold next at h
  split at h
  · cases h
  rename_i hlt
  simp only [Option.some.injEq, Prod.mk.injEq] at h
  obtain ⟨rfl, rfl⟩ := h
  -- `begin = bs * q + b` and `end = bs * q' + e` with `q ≤ q'`; the range ends at `end` when
  -- `q = q'` and at the next block boundary otherwise
  have hpos := blockBytes_pos it.blockSizeLog2
  have h1 := Nat.div_add_mod' it.begin (blockBytes it.blockSizeLog2)
  have h2 := Nat.div_add_mod' it.«end» (blockBytes it.blockSizeLog2)
  have h3 := Nat.mod_lt it.begin hpos
  have h4 := Nat.mod_lt it.«end» hpos
  have h5 : it.begin / blockBytes it.blockSizeLog2 ≤ it.«end» / blockBytes it.blockSizeLog2 :=
    Nat.div_le_div_right (by omega)
  split
  · rename_i hq
    rw [← hq] at h2
    refine ⟨by omega, rfl, ?_, ?_, ?_, ?_, ?_⟩ <;>
      simp only [BlockRange.originBegin, BlockRange.originEnd, BlockIter.mk.injEq, and_true] <;>
      omega
  · rename_i hq
    have h6 := Nat.mul_le_mul_right (blockBytes it.blockSizeLog2)
      (show it.begin / blockBytes it.blockSizeLog2 + 1 ≤ it.«end» / blockBytes it.blockSizeLog2
        by omega)
    rw [Nat.succ_mul] at h6
    refine ⟨by omega, rfl, ?_, ?_, ?_, ?_, ?_⟩ <;>
      simp only [BlockRange.originBegin, BlockRange.originEnd, BlockIter.mk.injEq, and_true] <;>
      omega

/-- `rs` cuts `[lo, hi)` in order into non-empty pieces, each inside one block of
`2 ^ log2` bytes. -/
def Partition (log2 : Nat) : Nat → Nat → List BlockRange → Prop
  | lo, hi, [] => lo = hi
  | lo, hi, r :: rs => r.blockSizeLog2 = log2 ∧ r.originBegin = lo ∧ r.begin < r.«end» ∧
      r.«end» ≤ blockBytes log2 ∧ Partition log2 r.originEnd hi rs

theorem Partition.le {log2 hi : Nat} {rs : List BlockRange} :
    ∀ {lo : Nat}, Partition log2 lo hi rs → lo ≤ hi := by
  induction rs with
  | nil =>
    intro lo h
    exact Nat.le_of_eq h
  | cons r rs ih =>
    rintro lo ⟨-, hb, hne, -, h⟩
    have := ih h
    simp only [BlockRange.originBegin, BlockRange.originEnd] at hb this
    omega

/-- From `begin ≤ end`, the iterator cuts `[begin, end)` into a partition, within `fuel`
calls of `next` when `end - begin ≤ fuel`: each call moves `begin` at least one byte on. -/
theorem rangesFrom_partition (fuel : Nat) : ∀ it : BlockIter, it.«end» - it.begin ≤ fuel →
    it.begin ≤ it.«end» → Partition it.blockSizeLog2 it.begin it.«end» (rangesFrom fuel it) := by
  induction fuel with
  | zero =>
    intro it hf hle
    show it.begin = it.«end»
    omega
  | succ fuel ih =>
    intro it hf hle
    unfold rangesFrom
    cases hn : it.next with
    | none =>
      have := next_eq_none_iff.mp hn
      show it.begin = it.«end»
      omega
    | some p =>
      obtain ⟨r, it'⟩ := p
      have hy := yields_of_next hn
      have hr : r.begin < r.«end» := hy.nonempty
      obtain rfl := hy.next
      refine ⟨hy.log2, hy.originBegin, hr, hy.le_block, ih { it with begin := r.originEnd } ?_ hy.le_end⟩
      have := hy.originBegin
      simp only [BlockRange.originBegin, BlockRange.originEnd] at this ⊢
      omega

/-- **The pieces partition the range**: the ranges a loop over `BlockIter` visits cut
`[begin, end)` in order into non-empty pieces, each inside one block. -/
theorem ranges_partition (it : BlockIter) (h : it.begin ≤ it.«end») :
    Partition it.blockSizeLog2 it.begin it.«end» it.ranges :=
  rangesFrom_partition _ it le_rfl h

/-- The test `block_iter` of `fs/util.rs`. -/
example : (BlockIter.mk 0x123 0x2018 12).ranges =
    [⟨0, 0x123, 0x1000, 12⟩, ⟨1, 0, 0x1000, 12⟩, ⟨2, 0, 0x18, 12⟩] := by decide

end BlockIter

/-! ## Devices -/

/-- `DevError`. -/
structure DevError where
  deriving DecidableEq, Repr

/-- A `BlockDevice` over a state `σ`: `readAt id buf` gives the contents of `buf` after the call,
which has the length of `buf`, as a `&mut [u8]` does. -/
structure BlockDevice (σ : Type) where
  blockSizeLog2 : Nat
  readAt : Nat → List UInt8 → KernelM σ (Except DevError (List UInt8))
  writeAt : Nat → List UInt8 → KernelM σ (Except DevError Unit)
  readAt_length : ∀ id buf s buf' s', (readAt id buf).run s = .ok (.ok buf', s') →
    buf'.length = buf.length

/-- `1 << Self::BLOCK_SIZE_LOG2`. -/
def BlockDevice.blockSize {σ : Type} (d : BlockDevice σ) : Nat := blockBytes d.blockSizeLog2

/-- `dst.copy_from_slice(src)`: the new contents of `dst`. -/
def copyFromSlice {σ : Type} (dst src : List UInt8) : KernelM σ (List UInt8) :=
  if dst.length = src.length then pure src else throw (.lengthMismatch dst.length src.length)

/-- `v` after `w` is written through `&mut v[a..b]`. -/
def writeSub {α : Type} (v : List α) (a b : Nat) (w : List α) : List α := v.take a ++ w ++ v.drop b

/-- The bytes `v[a..b]`. -/
def segment {α : Type} (v : List α) (a b : Nat) : List α := (v.take b).drop a

section Segments

variable {α : Type} {v w : List α} {a b : Nat}

theorem slice_of_le {σ : Type} (hab : a ≤ b) (hb : b ≤ v.length) :
    (slice v a b : KernelM σ (List α)) = pure (segment v a b) := by
  simp [slice, segment, hab, hb]

theorem length_segment (hb : b ≤ v.length) : (segment v a b).length = b - a := by
  simp [segment]
  omega

theorem getElem?_segment (i : Nat) :
    (segment v a b)[i]? = if a + i < b then v[a + i]? else none := by
  unfold segment
  rw [List.getElem?_drop, List.getElem?_take]

theorem length_writeSub (hab : a ≤ b) (hb : b ≤ v.length) (hw : w.length = b - a) :
    (writeSub v a b w).length = v.length := by
  simp [writeSub]
  omega

/-- A write through `&mut v[a..b]` changes `v` on `[a, b)` only, to `w`. -/
theorem getElem?_writeSub (hab : a ≤ b) (hb : b ≤ v.length) (hw : w.length = b - a) (j : Nat) :
    (writeSub v a b w)[j]? = if a ≤ j ∧ j < b then w[j - a]? else v[j]? := by
  unfold writeSub
  by_cases h1 : j < a
  · rw [if_neg (by omega), List.getElem?_append_left (by simp; omega),
      List.getElem?_append_left (by simp; omega), List.getElem?_take_of_lt h1]
  by_cases h2 : j < b
  · rw [if_pos ⟨by omega, h2⟩, List.getElem?_append_left (by simp; omega),
      List.getElem?_append_right (by simp; omega)]
    congr 1
    simp
    omega
  · rw [if_neg (by omega), List.getElem?_append_right (by simp; omega), List.getElem?_drop]
    congr 1
    simp
    omega

theorem segment_append_left (hb : b ≤ v.length) : segment (v ++ w) a b = segment v a b := by
  simp [segment, List.take_append_of_le_length hb]

theorem segment_segment {lo hi : Nat} (hab : b ≤ hi - lo) :
    segment (segment v lo hi) a b = segment v (lo + a) (lo + b) := by
  apply List.ext_getElem?
  intro i
  rw [getElem?_segment, getElem?_segment, getElem?_segment]
  split_ifs <;> first | rfl | omega | (congr 1; omega)

end Segments

theorem copyFromSlice_of_length {σ : Type} {dst src : List UInt8} (h : dst.length = src.length) :
    (copyFromSlice dst src : KernelM σ (List UInt8)) = pure src := by
  simp [copyFromSlice, h]

namespace Device

section Loops

variable {σ : Type} (d : BlockDevice σ) (uninit : List UInt8) (offset : Nat)

/-- The `for range in iter` loop of `Device::read_at`, over the ranges left, on the buffer so
far: `some len` is the early `return Ok(len)` of `try0!`, `none` the end of the loop. `uninit`
is what the uninitialised `block_buf` holds. -/
def readLoop : List BlockRange → List UInt8 → KernelM σ (Option Nat × List UInt8)
  | [], buf => pure (none, buf)
  | range :: ranges, buf => do
    let len := range.originBegin - offset
    let lo := range.originBegin - offset
    let hi := range.originEnd - offset
    let part ← slice buf lo hi
    if range.isFull then
      match ← d.readAt range.block part with
      | .error _ => pure (some len, buf)
      | .ok part => readLoop ranges (writeSub buf lo hi part)
    else
      unless d.blockSizeLog2 ≤ 10 do throw .blockSizeTooLarge
      match ← d.readAt range.block uninit with
      | .error _ => pure (some len, buf)
      | .ok blockBuf =>
        let part ← copyFromSlice part (← slice blockBuf range.begin range.«end»)
        readLoop ranges (writeSub buf lo hi part)

/-- `<T as Device>::read_at`: the result and the buffer after the call. -/
def readAt (buf : List UInt8) : KernelM σ (Except DevError Nat × List UInt8) := do
  let iter : BlockIter := ⟨offset, wrap (offset + buf.length), d.blockSizeLog2⟩
  let (ret, buf') ← readLoop d uninit offset iter.ranges buf
  pure (.ok (ret.getD buf.length), buf')

/-- The `for range in iter` loop of `Device::write_at`, over the ranges left. -/
def writeLoop (buf : List UInt8) : List BlockRange → KernelM σ (Option Nat)
  | [] => pure none
  | range :: ranges => do
    let len := range.originBegin - offset
    let part ← slice buf (range.originBegin - offset) (range.originEnd - offset)
    if range.isFull then
      match ← d.writeAt range.block part with
      | .error _ => pure (some len)
      | .ok () => writeLoop buf ranges
    else
      unless d.blockSizeLog2 ≤ 10 do throw .blockSizeTooLarge
      match ← d.readAt range.block uninit with
      | .error _ => pure (some len)
      | .ok blockBuf =>
        let dst ← copyFromSlice (← slice blockBuf range.begin range.«end») part
        match ← d.writeAt range.block (writeSub blockBuf range.begin range.«end» dst) with
        | .error _ => pure (some len)
        | .ok () => writeLoop buf ranges

/-- `<T as Device>::write_at`. -/
def writeAt (buf : List UInt8) : KernelM σ (Except DevError Nat) := do
  let iter : BlockIter := ⟨offset, wrap (offset + buf.length), d.blockSizeLog2⟩
  let ret ← writeLoop d uninit offset buf iter.ranges
  pure (.ok (ret.getD buf.length))

end Loops

end Device

/-! ## Lawful devices -/

namespace BlockDevice

variable {σ : Type}

/-- A device of `N` blocks whose bytes in state `s` are `bytes s`: from a state holding `N`
blocks, `read_at` of a block below `N` copies it to the front of the buffer and `write_at`
stores the front of the buffer as the block, neither changes any other byte, and both fail from
block `N` on. -/
structure Lawful (d : BlockDevice σ) (N : Nat) (bytes : σ → List UInt8) : Prop where
  read_ok : ∀ s id buf, (bytes s).length = N * d.blockSize → id < N → d.blockSize ≤ buf.length →
    ∃ s', (d.readAt id buf).run s = .ok (.ok (segment (bytes s) (id * d.blockSize)
      ((id + 1) * d.blockSize) ++ buf.drop d.blockSize), s') ∧ bytes s' = bytes s
  read_error : ∀ s id buf, (bytes s).length = N * d.blockSize → N ≤ id →
    ∃ e s', (d.readAt id buf).run s = .ok (.error e, s') ∧ bytes s' = bytes s
  write_ok : ∀ s id buf, (bytes s).length = N * d.blockSize → id < N → d.blockSize ≤ buf.length →
    ∃ s', (d.writeAt id buf).run s = .ok (.ok (), s') ∧ bytes s' =
      writeSub (bytes s) (id * d.blockSize) ((id + 1) * d.blockSize) (buf.take d.blockSize)
  write_error : ∀ s id buf, (bytes s).length = N * d.blockSize → N ≤ id →
    ∃ e s', (d.writeAt id buf).run s = .ok (.error e, s') ∧ bytes s' = bytes s

/-- Blocks of at most 1 KiB fit in `block_buf`. -/
theorem blockSize_le {d : BlockDevice σ} (hk : d.blockSizeLog2 ≤ 10) : d.blockSize ≤ 1024 := by
  unfold blockSize
  rw [blockBytes_of_lt (by omega)]
  exact Nat.pow_le_pow_right (by norm_num) hk

end BlockDevice

namespace Device

section Specs

variable {σ : Type} {d : BlockDevice σ} {N : Nat} {bytes : σ → List UInt8}
  {uninit : List UInt8} {offset : Nat}

/-- A range of a partition of `[lo, offset + len)` for `d`'s blocks, with `offset ≤ lo`. -/
structure Piece (d : BlockDevice σ) (offset len : Nat) (r : BlockRange) : Prop where
  log2 : r.blockSizeLog2 = d.blockSizeLog2
  nonempty : r.begin < r.«end»
  le_block : r.«end» ≤ d.blockSize
  offset_le : offset ≤ r.originBegin
  le_len : r.originEnd ≤ offset + len

theorem Piece.originBegin_eq {len : Nat} {r : BlockRange} (hp : Piece d offset len r) :
    r.originBegin = r.block * d.blockSize + r.begin := by
  simp [BlockRange.originBegin, hp.log2, BlockDevice.blockSize]

theorem Piece.originEnd_eq {len : Nat} {r : BlockRange} (hp : Piece d offset len r) :
    r.originEnd = r.block * d.blockSize + r.«end» := by
  simp [BlockRange.originEnd, hp.log2, BlockDevice.blockSize]

/-- A whole block's range starts at its first byte and ends at its last. -/
theorem Piece.isFull_iff {len : Nat} {r : BlockRange} (hp : Piece d offset len r) :
    r.isFull = true ↔ r.begin = 0 ∧ r.«end» = d.blockSize := by
  have := hp.le_block
  have := hp.nonempty
  have := blockBytes_pos d.blockSizeLog2
  simp only [BlockRange.isFull, BlockRange.len, hp.log2, beq_iff_eq]
  unfold BlockDevice.blockSize at *
  omega

theorem Piece.end_le_bytes {len : Nat} {r : BlockRange} (hp : Piece d offset len r)
    (hN : r.block < N) : r.originEnd ≤ N * d.blockSize := by
  have h := Nat.mul_le_mul_right d.blockSize (show r.block + 1 ≤ N from hN)
  rw [Nat.succ_mul] at h
  have := hp.le_block
  rw [hp.originEnd_eq]
  omega

theorem Piece.bytes_le_begin {len : Nat} {r : BlockRange} (hp : Piece d offset len r)
    (hN : N ≤ r.block) : N * d.blockSize ≤ r.originBegin := by
  have h := Nat.mul_le_mul_right d.blockSize hN
  rw [hp.originBegin_eq]
  omega

/-- The device's bytes under a block below `N`, from the range's first byte to its last. -/
theorem Piece.segment_block {len : Nat} {r : BlockRange} (hp : Piece d offset len r)
    (v : List UInt8) :
    segment (segment v (r.block * d.blockSize) ((r.block + 1) * d.blockSize)) r.begin r.«end» =
      segment v r.originBegin r.originEnd := by
  rw [segment_segment (by rw [Nat.succ_mul]; have := hp.le_block; omega), hp.originBegin_eq,
    hp.originEnd_eq]

/-- A range of a block below `N` reads the device's bytes under it into its part of the buffer,
and the loop goes on. -/
theorem readLoop_cons_of_lt (hl : d.Lawful N bytes) (hk : d.blockSizeLog2 ≤ 10)
    (hu : uninit.length = 1024) {r : BlockRange} (rs : List BlockRange) {buf : List UInt8} {s : σ}
    (hp : Piece d offset buf.length r) (hs : (bytes s).length = N * d.blockSize)
    (hN : r.block < N) :
    ∃ s', bytes s' = bytes s ∧ (readLoop d uninit offset (r :: rs) buf).run s =
      (readLoop d uninit offset rs (writeSub buf (r.originBegin - offset) (r.originEnd - offset)
        (segment (bytes s) r.originBegin r.originEnd))).run s' := by
  have hb := hp.originBegin_eq
  have he := hp.originEnd_eq
  have hne := hp.nonempty
  have hoff := hp.offset_le
  have hlen := hp.le_len
  have hbytes := hp.end_le_bytes hN
  have hpart : (slice buf (r.originBegin - offset) (r.originEnd - offset) : KernelM σ _) =
      pure (segment buf (r.originBegin - offset) (r.originEnd - offset)) :=
    slice_of_le (by omega) (by omega)
  have hplen : (segment buf (r.originBegin - offset) (r.originEnd - offset)).length =
      r.«end» - r.begin := by
    rw [length_segment (by omega)]
    omega
  by_cases hfull : r.isFull = true
  · -- a whole block is read into the buffer directly
    obtain ⟨hb0, hbs⟩ := hp.isFull_iff.mp hfull
    obtain ⟨s', hread, hs'⟩ := hl.read_ok s r.block
      (segment buf (r.originBegin - offset) (r.originEnd - offset)) hs hN (by rw [hplen]; omega)
    have hres : segment (bytes s) (r.block * d.blockSize) ((r.block + 1) * d.blockSize) ++
        (segment buf (r.originBegin - offset) (r.originEnd - offset)).drop d.blockSize =
        segment (bytes s) r.originBegin r.originEnd := by
      rw [List.drop_of_length_le (by omega), List.append_nil, hb, he, hb0, hbs, Nat.succ_mul,
        Nat.add_zero]
    rw [hres] at hread
    refine ⟨s', hs', ?_⟩
    simp only [readLoop, hpart, pure_bind, hfull, if_true]
    rw [StateT.run_bind_of_ok hread]
  · -- a partial block goes through `block_buf`
    have hbs := BlockDevice.blockSize_le hk
    have hle := hp.le_block
    have hblk : (r.block + 1) * d.blockSize ≤ (bytes s).length := by
      rw [hs]
      exact Nat.mul_le_mul_right d.blockSize (show r.block + 1 ≤ N from hN)
    obtain ⟨s', hread, hs'⟩ := hl.read_ok s r.block uninit hs hN (by omega)
    have hseglen : (segment (bytes s) (r.block * d.blockSize)
        ((r.block + 1) * d.blockSize)).length = d.blockSize := by
      rw [length_segment hblk, Nat.succ_mul]
      omega
    -- `block_buf` holds the block, then what it held before
    generalize hbuf : segment (bytes s) (r.block * d.blockSize) ((r.block + 1) * d.blockSize) ++
      uninit.drop d.blockSize = blockBuf at hread
    have hslice : (slice blockBuf r.begin r.«end» : KernelM σ (List UInt8)) =
        pure (segment (bytes s) r.originBegin r.originEnd) := by
      rw [slice_of_le (by omega)
        (by rw [← hbuf, List.length_append, hseglen, List.length_drop, hu]; omega), ← hbuf,
        segment_append_left (by omega), hp.segment_block]
    have hcopy : (copyFromSlice (segment buf (r.originBegin - offset) (r.originEnd - offset))
        (segment (bytes s) r.originBegin r.originEnd) : KernelM σ (List UInt8)) =
        pure (segment (bytes s) r.originBegin r.originEnd) :=
      copyFromSlice_of_length (by rw [hplen, length_segment (by omega)]; omega)
    refine ⟨s', hs', ?_⟩
    simp only [readLoop, hpart, pure_bind, hfull, Bool.false_eq_true, if_false, hk, if_true]
    rw [StateT.run_bind_of_ok hread]
    simp only [hslice, hcopy, pure_bind]

/-- A range of a block from `N` on ends the loop with the bytes done before it. -/
theorem readLoop_cons_of_ge (hl : d.Lawful N bytes) (hk : d.blockSizeLog2 ≤ 10)
    {r : BlockRange} (rs : List BlockRange) {buf : List UInt8} {s : σ}
    (hp : Piece d offset buf.length r) (hs : (bytes s).length = N * d.blockSize)
    (hN : N ≤ r.block) :
    ∃ s', bytes s' = bytes s ∧ (readLoop d uninit offset (r :: rs) buf).run s =
      .ok ((some (r.originBegin - offset), buf), s') := by
  have hne := hp.nonempty
  have hoff := hp.offset_le
  have hlen := hp.le_len
  have hb := hp.originBegin_eq
  have he := hp.originEnd_eq
  have hpart : (slice buf (r.originBegin - offset) (r.originEnd - offset) : KernelM σ _) =
      pure (segment buf (r.originBegin - offset) (r.originEnd - offset)) :=
    slice_of_le (by omega) (by omega)
  by_cases hfull : r.isFull = true
  · obtain ⟨e, s', hread, hs'⟩ := hl.read_error s r.block
      (segment buf (r.originBegin - offset) (r.originEnd - offset)) hs hN
    refine ⟨s', hs', ?_⟩
    simp only [readLoop, hpart, pure_bind, hfull, if_true]
    rw [StateT.run_bind_of_ok hread]
    rfl
  · obtain ⟨e, s', hread, hs'⟩ := hl.read_error s r.block uninit hs hN
    refine ⟨s', hs', ?_⟩
    simp only [readLoop, hpart, pure_bind, hfull, Bool.false_eq_true, if_false, hk, if_true]
    rw [StateT.run_bind_of_ok hread]
    rfl

/-- **The read loop.** Over a partition of `[lo, offset + len)`, the loop returns the bytes up
to the first block from `N` on, or all of them, and fills that part of the buffer from the
device, keeping the rest. -/
theorem readLoop_spec (hl : d.Lawful N bytes) (hk : d.blockSizeLog2 ≤ 10)
    (hu : uninit.length = 1024) (rs : List BlockRange) : ∀ {lo : Nat} {buf : List UInt8} {s : σ},
    BlockIter.Partition d.blockSizeLog2 lo (offset + buf.length) rs → offset ≤ lo →
    (bytes s).length = N * d.blockSize →
    ∃ ret buf' s', (readLoop d uninit offset rs buf).run s = .ok ((ret, buf'), s') ∧
      bytes s' = bytes s ∧
      ret.getD buf.length = min buf.length (max (lo - offset) (N * d.blockSize - offset)) ∧
      buf'.length = buf.length ∧
      ∀ j, buf'[j]? = if lo - offset ≤ j ∧ j < ret.getD buf.length then (bytes s)[offset + j]?
        else buf[j]? := by
  induction rs with
  | nil =>
    intro lo buf s hpart hoff hs
    have hlo : lo = offset + buf.length := hpart
    refine ⟨none, buf, s, rfl, rfl, ?_, rfl, fun j => ?_⟩
    · simp only [Option.getD_none]
      omega
    · rw [if_neg (by simp only [Option.getD_none]; omega)]
  | cons r rs ih =>
    intro lo buf s hpart hoff hs
    obtain ⟨hlog, rfl, hne, hle, hrest⟩ := hpart
    have hp : Piece d offset buf.length r := ⟨hlog, hne, hle, hoff, hrest.le⟩
    have he := hp.originEnd_eq
    have hb := hp.originBegin_eq
    have hend := hrest.le
    by_cases hN : r.block < N
    · -- the block is read, and the loop goes on from its end
      obtain ⟨s₁, hs₁, hrun⟩ := readLoop_cons_of_lt hl hk hu rs hp hs hN
      have hbytes := hp.end_le_bytes hN
      have hlen₁ : (writeSub buf (r.originBegin - offset) (r.originEnd - offset)
          (segment (bytes s) r.originBegin r.originEnd)).length = buf.length :=
        length_writeSub (by omega) (by omega) (by rw [length_segment (by omega)]; omega)
      obtain ⟨ret, buf', s', hrun', hs', hret, hlen', hpt⟩ :=
        ih (by rw [hlen₁]; exact hrest) (by omega) (by rw [hs₁]; exact hs)
      rw [hlen₁] at hret hpt
      have hM : r.originEnd - offset ≤ ret.getD buf.length := by
        rw [hret]
        omega
      refine ⟨ret, buf', s', by rw [hrun]; exact hrun', hs'.trans hs₁, ?_, hlen'.trans hlen₁,
        fun j => ?_⟩
      · rw [hret]
        omega
      · rw [hpt j, hs₁, getElem?_writeSub (by omega) (by omega)
          (by rw [length_segment (by omega)]; omega), getElem?_segment]
        split_ifs <;> first | rfl | omega | (congr 1; omega)
    · obtain ⟨s₁, hs₁, hrun⟩ := readLoop_cons_of_ge hl hk rs hp hs (by omega)
      have hge := hp.bytes_le_begin (show N ≤ r.block by omega)
      refine ⟨some (r.originBegin - offset), buf, s₁, hrun, hs₁, ?_, rfl, fun j => ?_⟩
      · have := hrest.le
        simp only [Option.getD_some]
        omega
      · rw [if_neg (by simp only [Option.getD_some]; omega)]

/-- Writing a patched `block_buf` back as block `r.block` writes the patch at the range. -/
theorem Piece.writeSub_block {len : Nat} {r : BlockRange} (hp : Piece d offset len r)
    {v blockBuf w : List UInt8} (hv : (r.block + 1) * d.blockSize ≤ v.length)
    (hbuf : blockBuf.take d.blockSize =
      segment v (r.block * d.blockSize) ((r.block + 1) * d.blockSize))
    (hlen : d.blockSize ≤ blockBuf.length) (hw : w.length = r.«end» - r.begin) :
    writeSub v (r.block * d.blockSize) ((r.block + 1) * d.blockSize)
        ((writeSub blockBuf r.begin r.«end» w).take d.blockSize) =
      writeSub v r.originBegin r.originEnd w := by
  have hle := hp.le_block
  have hne := hp.nonempty
  rw [Nat.succ_mul] at hv hbuf ⊢
  have hlen' : (writeSub blockBuf r.begin r.«end» w).length = blockBuf.length :=
    length_writeSub hne.le (by omega) hw
  apply List.ext_getElem?
  intro x
  rw [getElem?_writeSub (by omega) hv (by simp [hlen']; omega),
    getElem?_writeSub (by rw [hp.originBegin_eq, hp.originEnd_eq]; omega)
      (by rw [hp.originEnd_eq]; omega) (by rw [hp.originBegin_eq, hp.originEnd_eq]; omega),
    hp.originBegin_eq, hp.originEnd_eq]
  -- inside the block, `block_buf` holds the block's old bytes outside the patch
  by_cases hx : r.block * d.blockSize ≤ x ∧ x < r.block * d.blockSize + d.blockSize
  · rw [if_pos hx, List.getElem?_take, if_pos (by omega),
      getElem?_writeSub hne.le (by omega) hw]
    by_cases hy : r.begin ≤ x - r.block * d.blockSize ∧ x - r.block * d.blockSize < r.«end»
    · rw [if_pos hy, if_pos (by omega)]
      congr 1
      omega
    · rw [if_neg hy, if_neg (by omega)]
      have := congrArg (·[x - r.block * d.blockSize]?) hbuf
      simp only [List.getElem?_take, if_pos (show x - r.block * d.blockSize < d.blockSize by
        omega), getElem?_segment] at this
      rw [this, if_pos (by omega)]
      congr 1
      omega
  · rw [if_neg hx, if_neg (by omega)]

/-- A range of a block below `N` writes its part of the buffer to the device's bytes under it,
and the loop goes on. -/
theorem writeLoop_cons_of_lt (hl : d.Lawful N bytes) (hk : d.blockSizeLog2 ≤ 10)
    (hu : uninit.length = 1024) {r : BlockRange} (rs : List BlockRange) {buf : List UInt8} {s : σ}
    (hp : Piece d offset buf.length r) (hs : (bytes s).length = N * d.blockSize)
    (hN : r.block < N) :
    ∃ s', bytes s' = writeSub (bytes s) r.originBegin r.originEnd
        (segment buf (r.originBegin - offset) (r.originEnd - offset)) ∧
      (writeLoop d uninit offset buf (r :: rs)).run s = (writeLoop d uninit offset buf rs).run s' := by
  have hb := hp.originBegin_eq
  have he := hp.originEnd_eq
  have hne := hp.nonempty
  have hoff := hp.offset_le
  have hlen := hp.le_len
  have hle := hp.le_block
  have hpart : (slice buf (r.originBegin - offset) (r.originEnd - offset) : KernelM σ _) =
      pure (segment buf (r.originBegin - offset) (r.originEnd - offset)) :=
    slice_of_le (by omega) (by omega)
  have hplen : (segment buf (r.originBegin - offset) (r.originEnd - offset)).length =
      r.«end» - r.begin := by
    rw [length_segment (by omega)]
    omega
  by_cases hfull : r.isFull = true
  · -- a whole block is written from the buffer directly
    obtain ⟨hb0, hbs⟩ := hp.isFull_iff.mp hfull
    obtain ⟨s', hwrite, hs'⟩ := hl.write_ok s r.block
      (segment buf (r.originBegin - offset) (r.originEnd - offset)) hs hN (by rw [hplen]; omega)
    refine ⟨s', ?_, ?_⟩
    · rw [hs', List.take_of_length_le (by omega), hb, he, hb0, hbs, Nat.succ_mul, Nat.add_zero]
    · simp only [writeLoop, hpart, pure_bind, hfull, if_true]
      rw [StateT.run_bind_of_ok hwrite]
  · -- a partial block is read into `block_buf`, patched and written back
    have hbs := BlockDevice.blockSize_le hk
    have hbytes := hp.end_le_bytes hN
    have hblk : (r.block + 1) * d.blockSize ≤ (bytes s).length := by
      rw [hs]
      exact Nat.mul_le_mul_right d.blockSize (show r.block + 1 ≤ N from hN)
    obtain ⟨s₁, hread, hs₁⟩ := hl.read_ok s r.block uninit hs hN (by omega)
    have hseglen : (segment (bytes s) (r.block * d.blockSize)
        ((r.block + 1) * d.blockSize)).length = d.blockSize := by
      rw [length_segment hblk, Nat.succ_mul]
      omega
    generalize hbuf : segment (bytes s) (r.block * d.blockSize) ((r.block + 1) * d.blockSize) ++
      uninit.drop d.blockSize = blockBuf at hread
    have hbuflen : blockBuf.length = 1024 := by
      rw [← hbuf, List.length_append, hseglen, List.length_drop, hu]
      omega
    have hslice : (slice blockBuf r.begin r.«end» : KernelM σ (List UInt8)) =
        pure (segment (bytes s) r.originBegin r.originEnd) := by
      rw [slice_of_le (by omega) (by omega), ← hbuf, segment_append_left (by omega),
        hp.segment_block]
    have hcopy : (copyFromSlice (segment (bytes s) r.originBegin r.originEnd)
        (segment buf (r.originBegin - offset) (r.originEnd - offset)) : KernelM σ (List UInt8)) =
        pure (segment buf (r.originBegin - offset) (r.originEnd - offset)) :=
      copyFromSlice_of_length (by rw [hplen, length_segment (by omega)]; omega)
    obtain ⟨s₂, hwrite, hs₂⟩ := hl.write_ok s₁ r.block
      (writeSub blockBuf r.begin r.«end» (segment buf (r.originBegin - offset)
        (r.originEnd - offset))) (by rw [hs₁]; exact hs) hN
      (by rw [length_writeSub hne.le (by omega) hplen]; omega)
    refine ⟨s₂, ?_, ?_⟩
    · rw [hs₂, hs₁]
      exact hp.writeSub_block hblk (by rw [← hbuf, List.take_append_of_le_length (by omega),
        List.take_of_length_le (by omega)]) (by omega) hplen
    · simp only [writeLoop, hpart, pure_bind, hfull, Bool.false_eq_true, if_false, hk, if_true]
      rw [StateT.run_bind_of_ok hread]
      simp only [hslice, hcopy, pure_bind]
      rw [StateT.run_bind_of_ok hwrite]

/-- A range of a block from `N` on ends the loop with the bytes done before it. -/
theorem writeLoop_cons_of_ge (hl : d.Lawful N bytes) (hk : d.blockSizeLog2 ≤ 10)
    {r : BlockRange} (rs : List BlockRange) {buf : List UInt8} {s : σ}
    (hp : Piece d offset buf.length r) (hs : (bytes s).length = N * d.blockSize)
    (hN : N ≤ r.block) :
    ∃ s', bytes s' = bytes s ∧ (writeLoop d uninit offset buf (r :: rs)).run s =
      .ok (some (r.originBegin - offset), s') := by
  have hne := hp.nonempty
  have hoff := hp.offset_le
  have hlen := hp.le_len
  have hb := hp.originBegin_eq
  have he := hp.originEnd_eq
  have hpart : (slice buf (r.originBegin - offset) (r.originEnd - offset) : KernelM σ _) =
      pure (segment buf (r.originBegin - offset) (r.originEnd - offset)) :=
    slice_of_le (by omega) (by omega)
  by_cases hfull : r.isFull = true
  · obtain ⟨e, s', hwrite, hs'⟩ := hl.write_error s r.block
      (segment buf (r.originBegin - offset) (r.originEnd - offset)) hs hN
    refine ⟨s', hs', ?_⟩
    simp only [writeLoop, hpart, pure_bind, hfull, if_true]
    rw [StateT.run_bind_of_ok hwrite]
    rfl
  · obtain ⟨e, s', hread, hs'⟩ := hl.read_error s r.block uninit hs hN
    refine ⟨s', hs', ?_⟩
    simp only [writeLoop, hpart, pure_bind, hfull, Bool.false_eq_true, if_false, hk, if_true]
    rw [StateT.run_bind_of_ok hread]
    rfl

/-- **The write loop.** Over a partition of `[lo, offset + len)`, the loop returns the bytes up
to the first block from `N` on, or all of them, and writes that part of the buffer to the device,
keeping every other byte. -/
theorem writeLoop_spec (hl : d.Lawful N bytes) (hk : d.blockSizeLog2 ≤ 10)
    (hu : uninit.length = 1024) (buf : List UInt8) (rs : List BlockRange) : ∀ {lo : Nat} {s : σ},
    BlockIter.Partition d.blockSizeLog2 lo (offset + buf.length) rs → offset ≤ lo →
    (bytes s).length = N * d.blockSize →
    ∃ ret s', (writeLoop d uninit offset buf rs).run s = .ok (ret, s') ∧
      ret.getD buf.length = min buf.length (max (lo - offset) (N * d.blockSize - offset)) ∧
      (bytes s').length = N * d.blockSize ∧
      ∀ x, (bytes s')[x]? = if lo ≤ x ∧ x < offset + ret.getD buf.length then buf[x - offset]?
        else (bytes s)[x]? := by
  induction rs with
  | nil =>
    intro lo s hpart hoff hs
    have hlo : lo = offset + buf.length := hpart
    refine ⟨none, s, rfl, ?_, hs, fun x => ?_⟩
    · simp only [Option.getD_none]
      omega
    · rw [if_neg (by simp only [Option.getD_none]; omega)]
  | cons r rs ih =>
    intro lo s hpart hoff hs
    obtain ⟨hlog, rfl, hne, hle, hrest⟩ := hpart
    have hp : Piece d offset buf.length r := ⟨hlog, hne, hle, hoff, hrest.le⟩
    have he := hp.originEnd_eq
    have hb := hp.originBegin_eq
    have hend := hrest.le
    by_cases hN : r.block < N
    · -- the block is written, and the loop goes on from its end
      obtain ⟨s₁, hs₁, hrun⟩ := writeLoop_cons_of_lt hl hk hu rs hp hs hN
      have hbytes := hp.end_le_bytes hN
      have hplen : (segment buf (r.originBegin - offset) (r.originEnd - offset)).length =
          r.originEnd - r.originBegin := by
        rw [length_segment (by omega)]
        omega
      have hlen₁ : (bytes s₁).length = N * d.blockSize := by
        rw [hs₁, length_writeSub (by omega) (by omega) hplen, hs]
      obtain ⟨ret, s', hrun', hret, hlen', hpt⟩ := ih hrest (by omega) hlen₁
      have hM : r.originEnd - offset ≤ ret.getD buf.length := by
        rw [hret]
        omega
      refine ⟨ret, s', by rw [hrun]; exact hrun', ?_, hlen', fun x => ?_⟩
      · rw [hret]
        omega
      · rw [hpt x, hs₁, getElem?_writeSub (by omega) (by omega) hplen, getElem?_segment]
        split_ifs <;> first | rfl | omega | (congr 1; omega)
    · obtain ⟨s₁, hs₁, hrun⟩ := writeLoop_cons_of_ge hl hk rs hp hs (by omega)
      have hge := hp.bytes_le_begin (show N ≤ r.block by omega)
      refine ⟨some (r.originBegin - offset), s₁, hrun, ?_, by rw [hs₁]; exact hs, fun x => ?_⟩
      · simp only [Option.getD_some]
        omega
      · rw [hs₁, if_neg (by simp only [Option.getD_some]; omega)]

end Specs

/-- The bytes a call of `read_at` or `write_at` moves: the buffer, cut at the device's end. -/
def transferred (N blockSize offset len : Nat) : Nat := min len (N * blockSize - offset)

/-- **Byte I/O over a lawful block device is exact.** For a device of `N` blocks of `2 ^ k ≤ 1024`
bytes that copies exactly one block and fails from block `N` on, and a buffer that does not
reach past `usize::MAX`: `read_at` returns the `m` bytes up to the device's end, fills the front
of the buffer with them and keeps the rest; `write_at` returns the same `m`, writes the front of
the buffer there and keeps every other byte; and the pieces the iterator visits partition the
range into non-empty pieces inside one block each. -/
theorem device_io_exact {σ : Type} {d : BlockDevice σ} {N : Nat} {bytes : σ → List UInt8}
    (hl : d.Lawful N bytes) (hk : d.blockSizeLog2 ≤ 10) {uninit : List UInt8}
    (hu : uninit.length = 1024) {s : σ} (hs : (bytes s).length = N * 2 ^ d.blockSizeLog2)
    (offset : Nat) (buf : List UInt8) (hbuf : offset + buf.length < 2 ^ 64) :
    let m := transferred N (2 ^ d.blockSizeLog2) offset buf.length
    (∃ buf' s', (readAt d uninit offset buf).run s = .ok ((.ok m, buf'), s') ∧
      bytes s' = bytes s ∧ buf'.length = buf.length ∧
      buf'.take m = ((bytes s).drop offset).take m ∧ buf'.drop m = buf.drop m) ∧
    (∃ s', (writeAt d uninit offset buf).run s = .ok (.ok m, s') ∧
      bytes s' = (bytes s).take offset ++ buf.take m ++ (bytes s).drop (offset + m)) ∧
    BlockIter.Partition d.blockSizeLog2 offset (offset + buf.length)
      (BlockIter.mk offset (offset + buf.length) d.blockSizeLog2).ranges := by
  intro m
  have hbs : d.blockSize = 2 ^ d.blockSizeLog2 := blockBytes_of_lt (by omega)
  rw [← hbs] at hs
  have hm : m = min buf.length (N * d.blockSize - offset) := by
    simp only [m, transferred, hbs]
  have hwrap : wrap (offset + buf.length) = offset + buf.length := wrap_of_lt hbuf
  have hpart := BlockIter.ranges_partition ⟨offset, offset + buf.length, d.blockSizeLog2⟩
    (Nat.le_add_right _ _)
  refine ⟨?_, ?_, hpart⟩
  · obtain ⟨ret, buf', s', hrun, hs', hret, hlen, hpt⟩ := readLoop_spec hl hk hu _ hpart le_rfl hs
    dsimp only at hret hpt
    rw [Nat.sub_self, Nat.zero_max, ← hm] at hret
    refine ⟨buf', s', ?_, hs', hlen, ?_, ?_⟩
    · simp only [readAt, hwrap]
      rw [StateT.run_bind_of_ok hrun, hret]
      rfl
    · apply List.ext_getElem?
      intro j
      rw [List.getElem?_take, List.getElem?_take, hpt j, hret, Nat.sub_self, List.getElem?_drop]
      split_ifs <;> first | rfl | omega
    · apply List.ext_getElem?
      intro j
      rw [List.getElem?_drop, List.getElem?_drop, hpt (m + j), hret, if_neg (by omega)]
  · obtain ⟨ret, s', hrun, hret, hlen', hpt⟩ := writeLoop_spec hl hk hu buf _ hpart le_rfl hs
    dsimp only at hret hpt
    rw [Nat.sub_self, Nat.zero_max, ← hm] at hret
    refine ⟨s', ?_, ?_⟩
    · simp only [writeAt, hwrap]
      rw [StateT.run_bind_of_ok hrun, hret]
      rfl
    · apply List.ext_getElem?
      intro x
      rw [hpt x, hret]
      by_cases hend : N * d.blockSize ≤ offset
      · -- nothing is written past the device's end
        rw [if_neg (by omega), show m = 0 by omega, List.take_zero, List.append_nil,
          Nat.add_zero, List.take_append_drop]
      · have hw : (buf.take m).length = offset + m - offset := by simp; omega
        rw [show (bytes s).take offset ++ buf.take m ++ (bytes s).drop (offset + m) =
            writeSub (bytes s) offset (offset + m) (buf.take m) from rfl,
          getElem?_writeSub (by omega) (by omega) hw, List.getElem?_take]
        split_ifs <;> first | rfl | omega

end Device

/-! ## The test device -/

section TestDevice

variable {id : Nat} {buf s : List UInt8}

/-- `read_at` of the `Mutex<[u8; 16]>` of the tests in `fs/dev/mod.rs`: four blocks of four
bytes. -/
def testReadAt (blockId : Nat) (buf : List UInt8) :
    KernelM (List UInt8) (Except DevError (List UInt8)) := do
  if blockId ≥ 4 then return .error ⟨⟩
  let begin := blockId <<< 2
  let dst ← slice buf 0 4
  let dst ← copyFromSlice dst (← slice (← get) begin (begin + 4))
  pure (.ok (writeSub buf 0 4 dst))

/-- `write_at` of the same device. -/
def testWriteAt (blockId : Nat) (buf : List UInt8) :
    KernelM (List UInt8) (Except DevError Unit) := do
  if blockId ≥ 4 then return .error ⟨⟩
  let begin := blockId <<< 2
  let dst ← slice (← get) begin (begin + 4)
  let dst ← copyFromSlice dst (← slice buf 0 4)
  modify fun m => writeSub m begin (begin + 4) dst
  pure (.ok ())

theorem testReadAt_length {buf' s' : List UInt8}
    (h : (testReadAt id buf).run s = .ok (.ok buf', s')) : buf'.length = buf.length := by
  simp only [testReadAt, slice, copyFromSlice] at h
  -- each failed check ends the run with an error or a panic
  split_ifs at h with hid hb <;> try cases h
  simp only [StateT.run_bind, StateT.run_get, StateT.run_pure, pure_bind] at h
  split_ifs at h with hs <;> try cases h
  simp only [StateT.run_pure, pure_bind] at h
  split_ifs at h with hl <;> cases h
  simp only [writeSub, List.length_append, List.length_take, List.length_drop] at hl ⊢
  omega

theorem testReadAt_run_of_ge (hid : 4 ≤ id) : (testReadAt id buf).run s = .ok (.error ⟨⟩, s) := by
  simp only [testReadAt, if_pos hid]
  rfl

theorem testReadAt_run_of_lt (hid : id < 4) (hb : 4 ≤ buf.length) (hs : (id + 1) * 4 ≤ s.length) :
    (testReadAt id buf).run s = .ok (.ok (segment s (id * 4) ((id + 1) * 4) ++ buf.drop 4), s) := by
  have h4 : id <<< 2 = id * 4 := Nat.shiftLeft_eq id 2
  rw [Nat.succ_mul] at hs ⊢
  simp only [testReadAt, if_neg (show ¬ id ≥ 4 by omega), h4, slice_of_le (Nat.zero_le 4) hb,
    pure_bind]
  rw [StateT.run_bind, StateT.run_get, pure_bind]
  have hl : (segment buf 0 4).length = (segment s (id * 4) (id * 4 + 4)).length := by
    rw [length_segment hb, length_segment hs]
    omega
  simp only [slice_of_le (Nat.le_add_right _ 4) hs, copyFromSlice_of_length hl, pure_bind]
  show Except.ok (Except.ok (writeSub buf 0 4 _), s) = _
  simp [writeSub]

theorem testWriteAt_run_of_ge (hid : 4 ≤ id) : (testWriteAt id buf).run s = .ok (.error ⟨⟩, s) := by
  simp only [testWriteAt, if_pos hid]
  rfl

theorem testWriteAt_run_of_lt (hid : id < 4) (hb : 4 ≤ buf.length) (hs : (id + 1) * 4 ≤ s.length) :
    (testWriteAt id buf).run s = .ok (.ok (), writeSub s (id * 4) ((id + 1) * 4) (buf.take 4)) := by
  have h4 : id <<< 2 = id * 4 := Nat.shiftLeft_eq id 2
  rw [Nat.succ_mul] at hs ⊢
  simp only [testWriteAt, if_neg (show ¬ id ≥ 4 by omega), h4]
  rw [StateT.run_bind, StateT.run_get, pure_bind]
  have hl : (segment s (id * 4) (id * 4 + 4)).length = (segment buf 0 4).length := by
    rw [length_segment hb, length_segment hs]
    omega
  simp only [slice_of_le (Nat.le_add_right _ 4) hs, slice_of_le (Nat.zero_le 4) hb,
    copyFromSlice_of_length hl, pure_bind]
  show Except.ok (Except.ok (), writeSub s _ _ (segment buf 0 4)) = _
  simp [segment]

end TestDevice

/-- The device of the tests in `fs/dev/mod.rs`, with `BLOCK_SIZE_LOG2 = 2`. -/
def testDevice : BlockDevice (List UInt8) where
  blockSizeLog2 := 2
  readAt := testReadAt
  writeAt := testWriteAt
  readAt_length _ _ _ _ _ h := testReadAt_length h

theorem testDevice_blockSize : testDevice.blockSize = 4 := rfl

/-- The sixteen bytes of the mutex, as four blocks of four, make a lawful device. -/
theorem testDevice_lawful : testDevice.Lawful 4 id where
  read_ok s i buf hs hi hb := by
    rw [testDevice_blockSize] at hs hb ⊢
    exact ⟨s, testReadAt_run_of_lt hi hb (by simp at hs; omega), rfl⟩
  read_error s _ _ _ hi := ⟨⟨⟩, s, testReadAt_run_of_ge hi, rfl⟩
  write_ok s i buf hs hi hb := by
    rw [testDevice_blockSize] at hs hb ⊢
    exact ⟨_, testWriteAt_run_of_lt hi hb (by simp at hs; omega), rfl⟩
  write_error s _ _ _ hi := ⟨⟨⟩, s, testWriteAt_run_of_ge hi, rfl⟩

/-- The contents of the mutex in the test `read`. -/
def testBytes : List UInt8 := (List.range 16).map Nat.toUInt8

/-- The test `read` at offset 11, partly inside the device: five bytes come back. -/
theorem device_io_exact_partly_inside :
    testDevice.Lawful 4 id ∧ testDevice.blockSizeLog2 ≤ 10 ∧
      (List.replicate 1024 (0 : UInt8)).length = 1024 ∧
      (id testBytes).length = 4 * 2 ^ testDevice.blockSizeLog2 ∧
      11 + [3, 4, 5, 6, 7, 8].length < 2 ^ 64 ∧
    let m := Device.transferred 4 (2 ^ testDevice.blockSizeLog2) 11 [3, 4, 5, 6, 7, 8].length
    (∃ buf' s', (Device.readAt testDevice (List.replicate 1024 0) 11 [3, 4, 5, 6, 7, 8]).run
        testBytes = .ok ((.ok m, buf'), s') ∧
      id s' = id testBytes ∧ buf'.length = [3, 4, 5, 6, 7, 8].length ∧
      buf'.take m = ((id testBytes).drop 11).take m ∧
      buf'.drop m = [3, 4, 5, 6, 7, 8].drop m) ∧
    (∃ s', (Device.writeAt testDevice (List.replicate 1024 0) 11 [3, 4, 5, 6, 7, 8]).run
        testBytes = .ok (.ok m, s') ∧
      id s' = (id testBytes).take 11 ++ [3, 4, 5, 6, 7, 8].take m ++ (id testBytes).drop (11 + m)) ∧
    BlockIter.Partition testDevice.blockSizeLog2 11 (11 + [3, 4, 5, 6, 7, 8].length)
      (BlockIter.mk 11 (11 + [3, 4, 5, 6, 7, 8].length) testDevice.blockSizeLog2).ranges :=
  ⟨testDevice_lawful, by decide, List.length_replicate, by decide, by decide,
    Device.device_io_exact testDevice_lawful (by decide) List.length_replicate (by decide) 11
      [3, 4, 5, 6, 7, 8] (by decide)⟩

/-- The tests `read` and `write`, all inside: six bytes at offset 3. -/
example :
    (Device.readAt testDevice (List.replicate 1024 0) 3 (List.replicate 6 0)).run' testBytes =
      .ok (.ok 6, [3, 4, 5, 6, 7, 8]) := by decide +kernel

example :
    (Device.writeAt testDevice (List.replicate 1024 0) 3 [3, 4, 5, 6, 7, 8]).run
      (List.replicate 16 0) = .ok (.ok 6, [0, 0, 0, 3, 4, 5, 6, 7, 8, 0, 0, 0, 0, 0, 0, 0]) := by
  decide +kernel

end NaiveOs
