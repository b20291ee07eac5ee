import Mathlib
import NaiveOs.Mm.PageTableRefine

/-!
# User buffers (`mm/page_table.rs`, `syscall/mod.rs`)

A system call reaches the bytes of a user buffer `[ptr, ptr + len)` through the caller's page
table. `translated_byte_buffer` walks the range one page at a time and returns, for each page,
the slice of the frame behind it; `copy_out` runs the same walk and copies a kernel object
into those slices. `Thread::translate` and `translate_va` translate one address only.

The model keeps the walk's arithmetic as the source has it: `VirtAddr::from(usize)` keeps the
low 39 bits, `usize::from(VirtAddr)` sign-extends bit 38, and the chunk ends at the smaller
of the next page boundary and the masked end. A slice is where it lies in physical memory
(`PhysSlice`): its first byte and its length.

The main result, `translatedByteBuffer_spec`, says that on a range inside one canonical half of
the address space whose pages are all mapped the slices cover exactly the physical bytes behind
`ptr, ptr + 1, …, ptr + len - 1`, in order, each inside one frame; `copyOut_spec` says that
`copy_out` stores `src[i]` at the physical byte behind `ptr + i`, and nothing else.
-/

namespace NaiveOs

/-- A slice of physical memory: a `&mut [u8]` into a frame, by its first byte and length. -/
structure PhysSlice where
  start : Nat
  len : Nat
  deriving DecidableEq, Repr

namespace PhysSlice

/-- The physical addresses a slice covers. -/
def addrs (s : PhysSlice) : List Nat := List.range' s.start s.len

end PhysSlice

/-- `Ord::min` on virtual addresses: the first one when they are equal. -/
def VirtAddr.min (a b : VirtAddr) : VirtAddr := if a.val ≤ b.val then a else b

@[simp] theorem VirtAddr.min_val (a b : VirtAddr) : (a.min b).val = Min.min a.val b.val := by
  unfold VirtAddr.min
  split <;> omega

/-- `VirtPageNum::step`. -/
def VirtPageNum.step (v : VirtPageNum) : VirtPageNum := ⟨wrap (v.val + 1)⟩

namespace PageTable

/-- One iteration of the `while start < end` loop of `translated_byte_buffer` and `copy_out`:
the slice of the frame behind the page of `start` up to the next page boundary or to `end`,
whichever comes first, and the next `start`. `&bytes[lo..]` runs to the end of the frame when
the chunk's end is page aligned, `&bytes[lo..hi]` panics when `lo > hi`. -/
def userChunk (pt : PageTable) (mem : ByteMem) (start end_ : Nat) :
    Except Panic (PhysSlice × Nat) :=
  let startVa := VirtAddr.ofUsize start
  let vpn := startVa.floor
  match pt.translate mem vpn with
  | none => .error .unwrapNone
  | some pte =>
    let endVa := (VirtAddr.ofVirtPageNum vpn.step).min (VirtAddr.ofUsize end_)
    let lo := startVa.pageOffset
    let hi := if endVa.pageOffset = 0 then pageSize else endVa.pageOffset
    if lo ≤ hi then .ok (⟨pte.ppn.base + lo, hi - lo⟩, endVa.toUsize)
    else .error (.sliceOutOfRange lo hi pageSize)

/-- The loop of `translated_byte_buffer`. A range inside one canonical half of the address
space needs one iteration per page it touches, at most `len / PAGE_SIZE + 2`, which is the
`fuel` `translatedByteBuffer` gives (`translatedByteBuffer_spec`); outside them the source's
loop may not end, and the model stops there. -/
def translatedByteBufferLoop (pt : PageTable) (mem : ByteMem) (end_ : Nat) :
    Nat → Nat → Except Panic (List PhysSlice)
  | 0, _ => .ok []
  | fuel + 1, start =>
    if start < end_ then do
      let (s, start) ← pt.userChunk mem start end_
      let rest ← translatedByteBufferLoop pt mem end_ fuel start
      pure (s :: rest)
    else .ok []

end PageTable

/-! ## Canonical halves

Inside one half of the address space, `From<usize>` takes a fixed multiple of the page size
off every address and `From<VirtAddr>` puts it back, so the walk over the masked addresses is
the walk over the addresses themselves. -/

/-- `[q, e)` lies inside one canonical half of Sv39: below `2^38`, or from `2^64 - 2^38` up
with no wrap. -/
def InHalf (q e : Nat) : Prop := q ≤ e ∧ (e ≤ 2 ^ 38 ∨ 2 ^ 64 - 2 ^ 38 ≤ q ∧ e < 2 ^ 64)

/-- What `From<usize>` takes off an address of the half that ends at `e`. -/
def halfBase (e : Nat) : Nat := if e ≤ 2 ^ 38 then 0 else 2 ^ 64 - 2 ^ 39

theorem halfBase_mod (e : Nat) : halfBase e % 4096 = 0 := by
  unfold halfBase
  split <;> norm_num

namespace InHalf

variable {q e : Nat}

theorem mono (h : InHalf q e) {q' : Nat} (hq : q ≤ q') (hq' : q' ≤ e) : InHalf q' e := by
  obtain ⟨-, hlow | ⟨hup, hlt⟩⟩ := h
  · exact ⟨hq', .inl hlow⟩
  · exact ⟨hq', .inr ⟨by omega, hlt⟩⟩

theorem ofUsize_val (h : InHalf q e) {x : Nat} (hq : q ≤ x) (hx : x ≤ e) :
    (VirtAddr.ofUsize x).val + halfBase e = x := by
  obtain ⟨-, hlow | ⟨hup, hlt⟩⟩ := h
  · rw [halfBase, if_pos hlow, VirtAddr.ofUsize_val]
    omega
  · rw [halfBase, if_neg (by omega), VirtAddr.ofUsize_val]
    omega

/-- `From<VirtAddr>` of a chunk end `w` past the start: the address back in the half, except
at the very top of the lower half, where `2^38` sign-extends past the end and the walk stops. -/
theorem toUsize (h : InHalf q e) {w : Nat} (hw : (VirtAddr.ofUsize q).val < w)
    (hwe : w + halfBase e ≤ e) :
    (⟨w⟩ : VirtAddr).toUsize = w + halfBase e ∨
      (w + halfBase e = e ∧ e ≤ (⟨w⟩ : VirtAddr).toUsize) := by
  have hq := h.ofUsize_val le_rfl h.1
  obtain ⟨-, hlow | ⟨hup, hlt⟩⟩ := h
  · rw [halfBase, if_pos hlow] at hq hwe ⊢
    by_cases hw38 : w < 2 ^ 38
    · exact .inl (VirtAddr.toUsize_of_lt hw38)
    · right
      rw [VirtAddr.toUsize_of_ge (v := ⟨w⟩) (show 2 ^ 38 ≤ w by omega) (show w < 2 ^ 39 by omega)]
      omega
  · rw [halfBase, if_neg (by omega)] at hq hwe ⊢
    exact .inl (VirtAddr.toUsize_of_ge (v := ⟨w⟩) (show 2 ^ 38 ≤ w by omega)
      (show w < 2 ^ 39 by omega))

end InHalf

/-! ## One chunk -/

/-- What one iteration of the walk over `[q, e)` produces: a non-empty slice inside one frame
whose bytes are those `translate_va` gives for `q, q + 1, …`, and the next start, which is
the next page boundary or, when the chunk reaches `e`, a value that ends the loop. -/
structure PageTable.Chunk (pt : PageTable) (mem : ByteMem) (q e : Nat) (s : PhysSlice)
    (next : Nat) : Prop where
  pos : 0 < s.len
  le_end : q + s.len ≤ e
  inFrame : s.start % pageSize + s.len ≤ pageSize
  backs : ∀ i < s.len, pt.translateVa mem (VirtAddr.ofUsize (q + i)) = some ⟨s.start + i⟩
  next_lt : q + s.len < e → next = q + s.len ∧ next / pageSize = q / pageSize + 1
  next_end : q + s.len = e → e ≤ next

namespace PageTable

variable {pt : PageTable} {mem : ByteMem}

/-- `translate_va` at a byte of the page of `va`, from the entry the walk finds. -/
theorem translateVa_of_findPte {va : VirtAddr} {a : Nat} (ha : pt.findPte mem va.floor = some a) :
    pt.translateVa mem va = some ⟨(readPte mem a).ppn.base + va.val % 4096⟩ := by
  have hb : (readPte mem a).ppn.base + 4096 ≤ 2 ^ 56 := by
    rw [PhysPageNum.base_eq (PageTableEntry.ppn_val_lt _)]
    have := PageTableEntry.ppn_val_lt (readPte mem a)
    omega
  simp only [translateVa, ha, Option.map_some, VirtAddr.pageOffset_eq, Option.some.injEq]
  rw [← PhysPageNum.base, wrap_of_lt (by omega)]
  have hpa := PhysAddr.ofUsize_val ((readPte mem a).ppn.base + va.val % 4096)
  rw [Nat.mod_eq_of_lt (a := (readPte mem a).ppn.base + va.val % 4096) (by omega)] at hpa
  exact congrArg PhysAddr.mk hpa

theorem userChunk_spec {q e : Nat} (h : InHalf q e) (hqe : q < e)
    (hmap : (pt.translateVa mem (VirtAddr.ofUsize q)).isSome) :
    ∃ s next, pt.userChunk mem q e = .ok (s, next) ∧ pt.Chunk mem q e s next := by
  obtain ⟨a, ha⟩ : ∃ a, pt.findPte mem (VirtAddr.ofUsize q).floor = some a := by
    simpa [translateVa, Option.isSome_iff_exists] using hmap
  -- the masked start `vs` and end sit `halfBase e` below `q` and `e`
  obtain ⟨vs, hvs⟩ : ∃ vs, (VirtAddr.ofUsize q).val = vs := ⟨_, rfl⟩
  have hq := h.ofUsize_val le_rfl h.1
  have he := h.ofUsize_val h.1 le_rfl
  have hD := halfBase_mod e
  rw [hvs] at hq
  have hB : (VirtAddr.ofVirtPageNum (VirtAddr.ofUsize q).floor.step).val = (vs / 4096 + 1) * 4096 := by
    have : vs < 2 ^ 39 := by rw [← hvs, VirtAddr.ofUsize_val]; omega
    rw [VirtAddr.ofVirtPageNum_val (by simp only [VirtPageNum.step, VirtAddr.floor_val, wrap]; omega)]
    simp only [VirtPageNum.step, VirtAddr.floor_val, wrap, hvs]
    omega
  -- the chunk ends at `w`, the smaller of the next page boundary and the masked end
  generalize hmin : (VirtAddr.ofVirtPageNum (VirtAddr.ofUsize q).floor.step).min
    (VirtAddr.ofUsize e) = endVa
  obtain ⟨w⟩ := endVa
  have hwmin : w = min ((vs / 4096 + 1) * 4096) (VirtAddr.ofUsize e).val := by
    rw [← hB, ← VirtAddr.min_val, hmin]
  -- `&bytes[lo..hi]` with `hi` the offset of `w`, or the whole rest of the page
  have hlo : vs % 4096 ≤ (if w % 4096 = 0 then pageSize else w % 4096) := by
    simp only [pageSize]
    split <;> omega
  have hlen : (if w % 4096 = 0 then pageSize else w % 4096) - vs % 4096 = w - vs := by
    simp only [pageSize]
    split <;> omega
  refine ⟨⟨(readPte mem a).ppn.base + vs % 4096, w - vs⟩, (⟨w⟩ : VirtAddr).toUsize, ?_, ?_⟩
  · simp only [userChunk, translate, ha, Option.map_some, hmin, VirtAddr.pageOffset_eq, hvs]
    rw [if_pos hlo, hlen]
  · have hbase := PhysPageNum.base_eq (PageTableEntry.ppn_val_lt (readPte mem a))
    have hnext := h.toUsize (w := w) (by rw [hvs]; omega) (by omega)
    constructor
    case pos => show 0 < w - vs; omega
    case le_end => show q + (w - vs) ≤ e; omega
    case inFrame =>
      show ((readPte mem a).ppn.base + vs % 4096) % pageSize + (w - vs) ≤ pageSize
      simp only [pageSize, hbase]
      omega
    case backs =>
      intro i hi
      change i < w - vs at hi
      -- every byte of the chunk is on the page of `q`, at its offset plus `i`
      have hx := h.ofUsize_val (x := q + i) (by omega) (by omega)
      have hfloor : (VirtAddr.ofUsize (q + i)).floor = (VirtAddr.ofUsize q).floor := by
        simp only [VirtAddr.floor, VirtPageNum.mk.injEq, pageSize, hvs]
        omega
      rw [translateVa_of_findPte (hfloor ▸ ha)]
      simp only [Option.some.injEq, PhysAddr.mk.injEq]
      omega
    case next_lt =>
      intro hlt
      change q + (w - vs) < e at hlt
      -- short of `e`, the chunk ends at the page boundary
      rcases hnext with hnext | hnext
      · rw [hnext]
        simp only [pageSize]
        omega
      · omega
    case next_end =>
      intro heq
      change q + (w - vs) = e at heq
      rcases hnext with hnext | hnext
      · rw [hnext]
        omega
      · exact hnext.2

/-! ## The walk -/

/-- What `translate_va` gives for each byte of `[p, p + n)`, in order. -/
def backing (pt : PageTable) (mem : ByteMem) (p n : Nat) : List (Option PhysAddr) :=
  (List.range n).map fun i => pt.translateVa mem (VirtAddr.ofUsize (p + i))

theorem backing_add (pt : PageTable) (mem : ByteMem) (p a b : Nat) :
    pt.backing mem p (a + b) = pt.backing mem p a ++ pt.backing mem (p + a) b := by
  simp only [backing, List.range_add, List.map_append, List.map_map, Function.comp_def,
    Nat.add_assoc]

/-- Slices that tile `[p, p + n)`: their lengths add up to `n`, each lies in one frame, and
their bytes, in order, are those behind `p, p + 1, …, p + n - 1`. -/
structure Tiles (pt : PageTable) (mem : ByteMem) (p n : Nat) (slices : List PhysSlice) :
    Prop where
  len_sum : (slices.map PhysSlice.len).sum = n
  inFrame : ∀ s ∈ slices, s.start % pageSize + s.len ≤ pageSize
  backs : (slices.flatMap PhysSlice.addrs).map (fun a => some (PhysAddr.mk a)) = pt.backing mem p n

theorem Tiles.nil (p : Nat) : pt.Tiles mem p 0 [] :=
  ⟨rfl, by simp, by simp [backing]⟩

/-- A chunk followed by a tiling of the rest of the range tiles the range. -/
theorem Chunk.tiles_cons {q e next n : Nat} {s : PhysSlice} {rest : List PhysSlice}
    (hc : pt.Chunk mem q e s next) (ht : pt.Tiles mem (q + s.len) n rest) :
    pt.Tiles mem q (s.len + n) (s :: rest) := by
  have hs : s.addrs.map (fun a => some (PhysAddr.mk a)) = pt.backing mem q s.len := by
    simp only [PhysSlice.addrs, List.range'_eq_map_range, List.map_map, backing]
    refine List.map_congr_left fun i hi => ?_
    exact (hc.backs i (List.mem_range.mp hi)).symm
  constructor
  case len_sum => simp [ht.len_sum]
  case inFrame =>
    intro s' hs'
    rcases List.mem_cons.mp hs' with rfl | hs'
    · exact hc.inFrame
    · exact ht.inFrame s' hs'
  case backs => rw [backing_add, List.flatMap_cons, List.map_append, hs, ht.backs]

theorem translatedByteBufferLoop_of_le {e q : Nat} (h : e ≤ q) (fuel : Nat) :
    pt.translatedByteBufferLoop mem e fuel q = .ok [] := by
  cases fuel with
  | zero => rfl
  | succ fuel => simp [translatedByteBufferLoop, Nat.not_lt.mpr h]

/-- The walk over `[q, e)` inside one half, with every page mapped and fuel for every page it
touches, tiles the range. The induction is on the fuel; each step is one `userChunk_spec`. -/
theorem translatedByteBufferLoop_spec {e : Nat} (fuel : Nat) {q : Nat} (h : InHalf q e)
    (hfuel : q < e → (e - 1) / pageSize - q / pageSize < fuel)
    (hmap : ∀ i, q + i < e → (pt.translateVa mem (VirtAddr.ofUsize (q + i))).isSome) :
    ∃ slices, pt.translatedByteBufferLoop mem e fuel q = .ok slices ∧
      pt.Tiles mem q (e - q) slices := by
  induction fuel generalizing q with
  | zero =>
    -- no fuel is left only once the range is empty
    have heq : e - q = 0 := by
      by_contra hne
      have := hfuel (by omega)
      omega
    exact ⟨[], rfl, heq ▸ Tiles.nil q⟩
  | succ fuel ih =>
    by_cases hqe : q < e
    · obtain ⟨s, next, hrun, hc⟩ := userChunk_spec h hqe (by simpa using hmap 0 (by omega))
      have hle := hc.le_end
      by_cases hend : q + s.len < e
      · -- the walk goes on at the next page boundary
        obtain ⟨hnext, hpage⟩ := hc.next_lt hend
        have hfuel' : next < e → (e - 1) / pageSize - next / pageSize < fuel := by
          intro _
          have := hfuel hqe
          simp only [pageSize] at this hpage ⊢
          omega
        have hmap' : ∀ i, next + i < e →
            (pt.translateVa mem (VirtAddr.ofUsize (next + i))).isSome := by
          intro i hi
          simpa [hnext, Nat.add_assoc] using hmap (s.len + i) (by omega)
        obtain ⟨rest, hrest, ht⟩ := ih (h.mono (by omega) (by omega)) hfuel' hmap'
        refine ⟨s :: rest, ?_, ?_⟩
        · simp [translatedByteBufferLoop, hqe, hrun, hrest]
        · subst hnext
          have := hc.tiles_cons ht
          rwa [show s.len + (e - (q + s.len)) = e - q by omega] at this
      · -- the chunk reaches `e`, and its next start ends the loop
        have heq : q + s.len = e := by omega
        refine ⟨[s], ?_, ?_⟩
        · simp [translatedByteBufferLoop, hqe, hrun,
            translatedByteBufferLoop_of_le (hc.next_end heq)]
        · have := hc.tiles_cons (Tiles.nil (q + s.len))
          rwa [show s.len + 0 = e - q by omega] at this
    · exact ⟨[], translatedByteBufferLoop_of_le (by omega) _,
        (show e - q = 0 by omega) ▸ Tiles.nil q⟩

/-! ## Writes that leave the table alone -/

/-- A memory that agrees with `mem` on the frames that hold a table's tables translates as
`mem` does: the walk reads entries of those frames only. -/
theorem TablesIn.translate_congr {T : List PhysPageNum} {mem' : ByteMem}
    (hwf : TablesIn mem pt.rootPpn T) (hagree : ∀ t ∈ T, ∀ a, a / 4096 = t.val → mem' a = mem a)
    (vpn : VirtPageNum) : pt.translate mem' vpn = pt.translate mem vpn := by
  have hentry : ∀ t ∈ T, ∀ j < 512, entryAt mem' t j = entryAt mem t j := by
    intro t ht j hj
    have ht44 := hwf.frames_lt t ht
    simp only [entryAt, readPte, PageTableEntry.mk.injEq]
    refine ByteMem.readLE_congr fun i hi => hagree t ht _ ?_
    rw [pteAddr_eq ht44]
    omega
  have hwalk : tableAt mem' pt.rootPpn (dirPath vpn) = tableAt mem pt.rootPpn (dirPath vpn) := by
    refine tableAt_congr _ _ fun pre j post t hs ht => ?_
    obtain ⟨hpre, hj, -⟩ := (isDirPath_dirPath vpn).of_split hs
    exact hentry t (hwf.reach_mem pre t hpre ht) j hj
  simp only [translate, findPte_eq, hwalk]
  cases hp : tableAt mem pt.rootPpn (dirPath vpn) with
  | none => simp only [Option.map_none]
  | some t =>
    have := hentry t (hwf.reach_mem _ t (isDirPath_dirPath vpn) hp) _ (leafIdx_lt vpn)
    simpa [entryAt] using this

theorem userChunk_congr {mem' : ByteMem} (h : ∀ vpn, pt.translate mem' vpn = pt.translate mem vpn)
    (q e : Nat) : pt.userChunk mem' q e = pt.userChunk mem q e := by
  simp only [userChunk, h]

end PageTable

/-- `translated_byte_buffer(token, ptr, len)`: `end = start + len` wraps. -/
def translatedByteBuffer (token : Nat) (mem : ByteMem) (ptr len : Nat) :
    Except Panic (List PhysSlice) :=
  (PageTable.fromToken token).translatedByteBufferLoop mem (wrap (ptr + len))
    (len / pageSize + 2) ptr

/-- The loop of `copy_out`: each chunk is filled from the kernel object `src` at the source
position `pos`, which advances by `end_va - start`. -/
def copyOutLoop (pt : PageTable) (end_ : Nat) (src : List UInt8) :
    Nat → Nat → Nat → KernelM Machine Unit
  | 0, _, _ => pure ()
  | fuel + 1, start, pos => do
    if start < end_ then
      let (s, next) ← pt.userChunk (← get).mem start end_
      modify fun m => { m with mem := m.mem.writeBytes s.start ((src.drop pos).take s.len) }
      copyOutLoop pt end_ src fuel next (pos + wrapSub next start)

theorem copyOutLoop_step {pt : PageTable} {e : Nat} (src : List UInt8) (fuel : Nat) {q : Nat}
    (pos : Nat) {m : Machine} {s : PhysSlice} {next : Nat} (hqe : q < e)
    (h : pt.userChunk m.mem q e = .ok (s, next)) :
    (copyOutLoop pt e src (fuel + 1) q pos).run m =
      (copyOutLoop pt e src fuel next (pos + wrapSub next q)).run
        { m with mem := m.mem.writeBytes s.start ((src.drop pos).take s.len) } := by
  simp [copyOutLoop, hqe, h]

theorem copyOutLoop_of_le {pt : PageTable} {e q : Nat} (h : e ≤ q) (src : List UInt8)
    (fuel pos : Nat) (m : Machine) : (copyOutLoop pt e src fuel q pos).run m = .ok ((), m) := by
  cases fuel <;> simp [copyOutLoop, Nat.not_lt.mpr h] <;> rfl

section CopyOut

variable {pt : PageTable} {mem : ByteMem} {T : List PhysPageNum} {e : Nat}

/-- `copy_out` over `[q, e)`, on a machine whose memory agrees with `mem` on the frames `T` that
hold the table's tables and writes no byte of them, is the walk of `translated_byte_buffer` in `mem`
followed by the bytes of `src` from `pos` on, one by one, into the slices. The induction is on
the fuel, with the machine and the source position; the writes keep the agreement on `T`, so
each chunk is the one `translated_byte_buffer` finds. -/
theorem copyOutLoop_spec (hwf : PageTable.TablesIn mem pt.rootPpn T) (src : List UInt8)
    (fuel : Nat) {q : Nat} (pos : Nat) {m : Machine} (h : InHalf q e)
    (hfuel : q < e → (e - 1) / pageSize - q / pageSize < fuel)
    (hmap : ∀ i, q + i < e → (pt.translateVa mem (VirtAddr.ofUsize (q + i))).isSome)
    (hout : ∀ i, q + i < e → ∀ pa, pt.translateVa mem (VirtAddr.ofUsize (q + i)) = some pa →
      ∀ t ∈ T, pa.val / 4096 ≠ t.val)
    (hagree : ∀ t ∈ T, ∀ a, a / 4096 = t.val → m.mem a = mem a)
    (hsrc : pos + (e - q) ≤ src.length) :
    ∃ slices, pt.translatedByteBufferLoop mem e fuel q = .ok slices ∧
      (copyOutLoop pt e src fuel q pos).run m =
        .ok ((), { m with
          mem := m.mem.scatter
            ((slices.flatMap PhysSlice.addrs).zip ((src.drop pos).take (e - q))) }) := by
  induction fuel generalizing q pos m with
  | zero =>
    have heq : e - q = 0 := by
      by_contra hne
      have := hfuel (by omega)
      omega
    refine ⟨[], rfl, ?_⟩
    simp only [List.flatMap_nil, List.zip_nil_left, ByteMem.scatter_nil]
    rfl
  | succ fuel ih =>
    by_cases hqe : q < e
    · obtain ⟨s, next, hrun, hc⟩ :=
        PageTable.userChunk_spec h hqe (by simpa using hmap 0 (by omega))
      have hle := hc.le_end
      -- the chunk is found in the current memory too, and copying it keeps `T` alone
      have hrun' : pt.userChunk m.mem q e = .ok (s, next) :=
        (PageTable.userChunk_congr (hwf.translate_congr hagree) q e).trans hrun
      have hstep := copyOutLoop_step src fuel pos hqe hrun'
      have hlen : ((src.drop pos).take s.len).length = s.len := by
        simp only [List.length_take, List.length_drop]
        omega
      have hwrite : m.mem.writeBytes s.start ((src.drop pos).take s.len) =
          m.mem.scatter (s.addrs.zip ((src.drop pos).take s.len)) := by
        rw [ByteMem.writeBytes_eq_scatter, hlen]
        rfl
      have hagree' : ∀ t ∈ T, ∀ a, a / 4096 = t.val →
          m.mem.writeBytes s.start ((src.drop pos).take s.len) a = mem a := by
        intro t ht a ha
        by_cases hin : s.start ≤ a ∧ a < s.start + s.len
        · exfalso
          have hback := hc.backs (a - s.start) (by omega)
          exact hout (a - s.start) (by omega) _ hback t ht (by simpa [show s.start + (a - s.start) = a by omega] using ha)
        · rw [ByteMem.writeBytes, ByteMem.store_apply_outside _ _ (by omega)]
          exact hagree t ht a ha
      by_cases hend : q + s.len < e
      · -- the walk goes on at the next page boundary, and so does the source position
        obtain ⟨hnext, hpage⟩ := hc.next_lt hend
        subst hnext
        have hwrap : wrapSub (q + s.len) q = s.len := by
          have := h.2
          rw [wrapSub_of_le (by omega) (by omega)]
          omega
        obtain ⟨rest, hrest, hcopy⟩ := ih (q := q + s.len) (pos + s.len)
          (m := { m with mem := m.mem.writeBytes s.start ((src.drop pos).take s.len) })
          (h.mono (by omega) (by omega))
          (fun _ => by have := hfuel hqe; simp only [pageSize] at this hpage ⊢; omega)
          (fun i hi => by simpa [Nat.add_assoc] using hmap (s.len + i) (by omega))
          (fun i hi pa hpa => hout (s.len + i) (by omega) pa (by simpa [Nat.add_assoc] using hpa))
          hagree' (by omega)
        refine ⟨s :: rest, by simp [PageTable.translatedByteBufferLoop, hqe, hrun, hrest], ?_⟩
        rw [hstep, hwrap, hcopy]
        -- the source bytes split at the chunk's length, as the addresses do
        have hsplit : (src.drop pos).take (e - q) =
            (src.drop pos).take s.len ++ (src.drop (pos + s.len)).take (e - (q + s.len)) := by
          rw [show e - q = s.len + (e - (q + s.len)) by omega, List.take_add, List.drop_drop]
        have haddrs : s.addrs.length = ((src.drop pos).take s.len).length := by
          rw [hlen, PhysSlice.addrs, List.length_range']
        simp only [List.flatMap_cons, hsplit, List.zip_append haddrs, ByteMem.scatter_append, hwrite]
      · -- the chunk reaches `e`, and the copy stops after it
        have heq : q + s.len = e := by omega
        refine ⟨[s], by simp [PageTable.translatedByteBufferLoop, hqe, hrun,
          PageTable.translatedByteBufferLoop_of_le (hc.next_end heq)], ?_⟩
        rw [hstep, copyOutLoop_of_le (hc.next_end heq), show e - q = s.len by omega, hwrite]
        simp
    · refine ⟨[], PageTable.translatedByteBufferLoop_of_le (by omega) _, ?_⟩
      rw [copyOutLoop_of_le (by omega)]
      simp only [List.flatMap_nil, List.zip_nil_left, ByteMem.scatter_nil]

end CopyOut

/-- `copy_out(token, ptr, src, len)`: `len` bytes of the kernel object `src` to the user
buffer at `ptr`. -/
def copyOut (token : Nat) (ptr : Nat) (src : List UInt8) (len : Nat) : KernelM Machine Unit :=
  copyOutLoop (PageTable.fromToken token) (wrap (ptr + len)) src (len / pageSize + 2) ptr 0

/-! ## Exact copies inside one canonical half -/

section Exact

variable {token : Nat} {mem : ByteMem} {p n : Nat}

theorem translatedByteBuffer_spec (hhalf : p + n ≤ 2 ^ 38 ∨ (2 ^ 64 - 2 ^ 38 ≤ p ∧ p + n < 2 ^ 64))
    (hmapped : ∀ i < n,
      ((PageTable.fromToken token).translateVa mem (VirtAddr.ofUsize (p + i))).isSome) :
    ∃ slices, translatedByteBuffer token mem p n = .ok slices ∧
      (PageTable.fromToken token).Tiles mem p n slices := by
  have h : InHalf p (p + n) := ⟨Nat.le_add_right p n, hhalf⟩
  obtain ⟨slices, hrun, ht⟩ := PageTable.translatedByteBufferLoop_spec (n / pageSize + 2) h
    (fun _ => by simp only [pageSize]; omega) (fun i hi => hmapped i (by omega))
  rw [Nat.add_sub_cancel_left] at ht
  refine ⟨slices, ?_, ht⟩
  rw [translatedByteBuffer, wrap_of_lt (by omega)]
  exact hrun

/-- `copy_out` on a range inside one canonical half whose pages are all mapped, none of them
to a frame of the table itself, writes `src[i]` at the byte behind `p + i`, in order, and
nothing else. -/
theorem copyOut_spec {T : List PhysPageNum} {src : List UInt8}
    (hhalf : p + n ≤ 2 ^ 38 ∨ (2 ^ 64 - 2 ^ 38 ≤ p ∧ p + n < 2 ^ 64))
    (hmapped : ∀ i < n,
      ((PageTable.fromToken token).translateVa mem (VirtAddr.ofUsize (p + i))).isSome)
    (hwf : PageTable.TablesIn mem (PageTable.fromToken token).rootPpn T)
    (hout : ∀ i < n, ∀ pa, (PageTable.fromToken token).translateVa mem (VirtAddr.ofUsize (p + i)) =
      some pa → ∀ t ∈ T, pa.val / 4096 ≠ t.val)
    (hsrc : n ≤ src.length) (fa : StackFrameAllocator) :
    ∃ addrs : List Nat, addrs.map (fun a => some (PhysAddr.mk a)) =
        (PageTable.fromToken token).backing mem p n ∧
      (copyOut token p src n).run ⟨mem, fa⟩ = .ok ((), ⟨mem.scatter (addrs.zip src), fa⟩) := by
  have h : InHalf p (p + n) := ⟨Nat.le_add_right p n, hhalf⟩
  obtain ⟨slices, hwalk, hrun⟩ := copyOutLoop_spec hwf src (n / pageSize + 2) 0
    (m := ⟨mem, fa⟩) h (fun _ => by simp only [pageSize]; omega)
    (fun i hi => hmapped i (by omega)) (fun i hi => hout i (by omega)) (fun _ _ _ _ => rfl)
    (by omega)
  -- the walk of `copy_out` is the walk of `translated_byte_buffer`, which tiles the range
  obtain ⟨slices', hbuf, htiles⟩ := translatedByteBuffer_spec hhalf hmapped
  rw [translatedByteBuffer, wrap_of_lt (by omega), hwalk] at hbuf
  injection hbuf with hsame
  subst hsame
  have hlen : (slices.flatMap PhysSlice.addrs).length = n := by
    simpa [PageTable.backing] using congrArg List.length htiles.backs
  refine ⟨slices.flatMap PhysSlice.addrs, htiles.backs, ?_⟩
  rw [copyOut, wrap_of_lt (by omega), hrun, List.drop_zero, Nat.add_sub_cancel_left]
  -- `src` past its first `n` bytes is never read
  congr 4
  conv_lhs => rw [List.zip_eq_zip_take_min]
  conv_rhs => rw [List.zip_eq_zip_take_min]
  simp [List.take_take, hlen, Nat.min_eq_left hsrc]

/-- Inside one canonical half, with every page of `[p, p + n)` mapped, the slices of
`translated_byte_buffer` add up to `n` bytes, each inside one frame, and are, in order, the
bytes behind `p, …, p + n - 1`; `copy_out` writes `src[i]` at the byte behind `p + i` and
nothing else, as long as no page of the range is one of the table's own frames. -/
theorem userCopy_exact (hhalf : p + n ≤ 2 ^ 38 ∨ (2 ^ 64 - 2 ^ 38 ≤ p ∧ p + n < 2 ^ 64))
    (hmapped : ∀ i < n,
      ((PageTable.fromToken token).translateVa mem (VirtAddr.ofUsize (p + i))).isSome) :
    (∃ slices, translatedByteBuffer token mem p n = .ok slices ∧
      (slices.map PhysSlice.len).sum = n ∧
      (∀ s ∈ slices, s.start % pageSize + s.len ≤ pageSize) ∧
      (slices.flatMap PhysSlice.addrs).map (fun a => some (PhysAddr.mk a)) =
        (PageTable.fromToken token).backing mem p n) ∧
    ∀ T : List PhysPageNum, PageTable.TablesIn mem (PageTable.fromToken token).rootPpn T →
      (∀ i < n, ∀ pa, (PageTable.fromToken token).translateVa mem (VirtAddr.ofUsize (p + i)) =
        some pa → ∀ t ∈ T, pa.val / 4096 ≠ t.val) →
      ∀ src : List UInt8, n ≤ src.length → ∀ fa : StackFrameAllocator,
        ∃ addrs : List Nat, addrs.map (fun a => some (PhysAddr.mk a)) =
            (PageTable.fromToken token).backing mem p n ∧
          (copyOut token p src n).run ⟨mem, fa⟩ = .ok ((), ⟨mem.scatter (addrs.zip src), fa⟩) := by
  constructor
  · obtain ⟨slices, hrun, ht⟩ := translatedByteBuffer_spec hhalf hmapped
    exact ⟨slices, hrun, ht.len_sum, ht.inFrame, ht.backs⟩
  · intro T hwf hout src hsrc fa
    exact copyOut_spec hhalf hmapped hwf hout hsrc fa

end Exact

/-! ## Two sample tables

Both are rooted at frame 1, with the directory at frame 2 and the leaf table at frame 3, and map
the user pages 510 and 511. -/

/-- `satp` of both tables: Sv39, root frame 1. -/
def selfMapToken : Nat := 0x8000000000000001

/-- The table whose pages 510 and 511 are frames 5 and 4, apart from its own frames. -/
def apartMem : ByteMem :=
  (((ByteMem.writeLE (fun _ => 0) 4096 8 2049).writeLE 8192 8 3073).writeLE 16368 8 5143).writeLE
    16376 8 4119

/-- The table's own tables are frames 1, 2 and 3: the root links its entry 0 only, to the
directory at frame 2, which links its entry 0 only, to the leaf table at frame 3. -/
theorem apartMem_tablesIn :
    PageTable.TablesIn apartMem (PageTable.fromToken selfMapToken).rootPpn [⟨1⟩, ⟨2⟩, ⟨3⟩] where
  frames_lt := by decide
  reach_mem path q hpath hq := by
    have hroot : ∀ i < 512, PageTable.child apartMem ⟨1⟩ i = if i = 0 then some ⟨2⟩ else none := by
      decide +kernel
    have hdir : ∀ i < 512, PageTable.child apartMem ⟨2⟩ i = if i = 0 then some ⟨3⟩ else none := by
      decide +kernel
    obtain ⟨hlen, hlt⟩ := hpath
    change PageTable.tableAt apartMem ⟨1⟩ path = some q at hq
    -- a path has at most two indexes, each below 512
    rcases path with _ | ⟨i, _ | ⟨j, _ | ⟨k, rest⟩⟩⟩
    · cases hq
      simp
    · rw [PageTable.tableAt, hroot i (hlt i (by simp))] at hq
      split_ifs at hq <;> simp_all [PageTable.tableAt]
    · rw [PageTable.tableAt, hroot i (hlt i (by simp))] at hq
      split_ifs at hq
      · rw [Option.bind_some, PageTable.tableAt, hdir j (hlt j (by simp))] at hq
        split_ifs at hq <;> simp_all [PageTable.tableAt]
      · simp at hq
    · simp at hlen

/-- The nine bytes from 8 bytes before the end of page 510 are in frames 5 and 4. -/
theorem apartMem_frames : ∀ i < 9, ((PageTable.fromToken selfMapToken).translateVa apartMem
    (VirtAddr.ofUsize (2093048 + i))).map (fun pa => pa.val / 4096) =
      some (if i < 8 then 5 else 4) := by
  decide

/-- Nine bytes across pages 510 and 511 of the table apart from its frames: the walk of
`translated_byte_buffer` tiles them, and `copy_out` writes them to the bytes behind the range. -/
theorem userCopy_exact_across_page :
    (2093048 + 9 ≤ 2 ^ 38 ∨ (2 ^ 64 - 2 ^ 38 ≤ 2093048 ∧ 2093048 + 9 < 2 ^ 64)) ∧
    (∀ i < 9, ((PageTable.fromToken selfMapToken).translateVa apartMem
      (VirtAddr.ofUsize (2093048 + i))).isSome) ∧
    (∃ slices, translatedByteBuffer selfMapToken apartMem 2093048 9 = .ok slices ∧
      (slices.map PhysSlice.len).sum = 9 ∧
      (∀ s ∈ slices, s.start % pageSize + s.len ≤ pageSize) ∧
      (slices.flatMap PhysSlice.addrs).map (fun a => some (PhysAddr.mk a)) =
        (PageTable.fromToken selfMapToken).backing apartMem 2093048 9) ∧
    PageTable.TablesIn apartMem (PageTable.fromToken selfMapToken).rootPpn [⟨1⟩, ⟨2⟩, ⟨3⟩] ∧
    (∀ i < 9, ∀ pa, (PageTable.fromToken selfMapToken).translateVa apartMem
      (VirtAddr.ofUsize (2093048 + i)) = some pa → ∀ t ∈ [(⟨1⟩ : PhysPageNum), ⟨2⟩, ⟨3⟩],
        pa.val / 4096 ≠ t.val) ∧
    9 ≤ [1, 2, 3, 4, 5, 6, 7, 8, 9].length ∧
    ∃ addrs : List Nat, addrs.map (fun a => some (PhysAddr.mk a)) =
        (PageTable.fromToken selfMapToken).backing apartMem 2093048 9 ∧
      (copyOut selfMapToken 2093048 [1, 2, 3, 4, 5, 6, 7, 8, 9] 9).run ⟨apartMem, ⟨0, 0, []⟩⟩ =
        .ok ((), ⟨apartMem.scatter (addrs.zip [1, 2, 3, 4, 5, 6, 7, 8, 9]), ⟨0, 0, []⟩⟩) := by
  have hmapped : ∀ i < 9, ((PageTable.fromToken selfMapToken).translateVa apartMem
      (VirtAddr.ofUsize (2093048 + i))).isSome := fun i hi => by
    simpa using congrArg Option.isSome (apartMem_frames i hi)
  have hout : ∀ i < 9, ∀ pa, (PageTable.fromToken selfMapToken).translateVa apartMem
      (VirtAddr.ofUsize (2093048 + i)) = some pa → ∀ t ∈ [(⟨1⟩ : PhysPageNum), ⟨2⟩, ⟨3⟩],
        pa.val / 4096 ≠ t.val := by
    intro i hi pa hpa t ht
    have hframe := apartMem_frames i hi
    rw [hpa, Option.map_some, Option.some.injEq] at hframe
    simp only [List.mem_cons, List.not_mem_nil, or_false] at ht
    rcases ht with rfl | rfl | rfl <;> split_ifs at hframe <;> simp [hframe]
  obtain ⟨hbuf, hcopy⟩ := userCopy_exact (.inl (by decide)) hmapped
  exact ⟨.inl (by decide), hmapped, hbuf, apartMem_tablesIn, hout, by decide,
    hcopy _ apartMem_tablesIn hout _ (by decide) _⟩

/-! ### A table that maps its own leaf

`copy_out` translates each chunk after writing the one before, so a user page that is a frame of
the table lets one chunk rewrite the entry the next chunk goes through. -/

/-- The table whose user page 510 is its leaf table itself, at frame 3, and whose page 511 is
frame 4. -/
def selfMapMem : ByteMem :=
  (((ByteMem.writeLE (fun _ => 0) 4096 8 2049).writeLE 8192 8 3073).writeLE 16368 8 3095).writeLE
    16376 8 4119

/-- On that table, `copy_out` of nine bytes at the end of page 510 first overwrites the leaf
entry of page 511 with the entry of frame 5, then writes its last byte through it: the byte
behind `p + 8` is in frame 4, which keeps its 0, and the 7 lands in frame 5. -/
theorem copyOut_through_own_leaf :
    (∀ i < 9, ((PageTable.fromToken selfMapToken).translateVa selfMapMem
      (VirtAddr.ofUsize (2093048 + i))).isSome) ∧
    (PageTable.fromToken selfMapToken).translateVa selfMapMem (VirtAddr.ofUsize (2093048 + 8)) =
      some ⟨16384⟩ ∧
    ((copyOut selfMapToken 2093048 [0x17, 0x14, 0, 0, 0, 0, 0, 0, 7] 9).run
      ⟨selfMapMem, ⟨0, 0, []⟩⟩).map (fun r => (r.2.mem 16384, r.2.mem 20480)) = .ok (0, 7) :=
  ⟨by decide, by decide, by decide⟩

/-- `Thread::translate(ptr)`: the physical address of the one byte `ptr`, through
`translate_va(..).unwrap()`. -/
def translateUser (pt : PageTable) (mem : ByteMem) (ptr : Nat) : Except Panic Nat :=
  match pt.translateVa mem (VirtAddr.ofUsize ptr) with
  | some pa => .ok pa.val
  | none => .error .unwrapNone

end NaiveOs
