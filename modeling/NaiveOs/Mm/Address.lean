import NaiveOs.Basic

/-!
# Addresses and page numbers (`mm/address.rs`)

Sv39: virtual addresses have 39 bits, physical addresses 56, pages 4096 bytes. The four
newtypes keep the source's conversions exactly: `From<usize>` masks to the width, the
conversion back from `VirtAddr` sign-extends bit 38, `floor`/`ceil`/`ceil_align` round with
release-mode wrapping arithmetic, and the conversion of an address to a page number asserts
that the address is page-aligned. Each definition is followed by the lemma that turns it into
plain arithmetic, which is the only form later modules use.

A `VPNRange` carries `start ≤ end`, which `SimpleRange::new` asserts, so iterating it is the
list `[start, end)`.
-/

namespace NaiveOs

def paWidthSv39 : Nat := 56
def vaWidthSv39 : Nat := 39
def ppnWidthSv39 : Nat := paWidthSv39 - pageSizeBits
def vpnWidthSv39 : Nat := vaWidthSv39 - pageSizeBits

/-- A physical address. -/
structure PhysAddr where
  val : Nat
  deriving DecidableEq, Repr

/-- A virtual address. -/
structure VirtAddr where
  val : Nat
  deriving DecidableEq, Repr

/-- A physical page number. -/
structure PhysPageNum where
  val : Nat
  deriving DecidableEq, Repr

/-- A virtual page number. -/
structure VirtPageNum where
  val : Nat
  deriving DecidableEq, Repr

/-! ## Conversions from `usize` -/

/-- `From<usize> for PhysAddr`. -/
def PhysAddr.ofUsize (v : Nat) : PhysAddr := ⟨v &&& ((1 <<< paWidthSv39) - 1)⟩

/-- `From<usize> for PhysPageNum`. -/
def PhysPageNum.ofUsize (v : Nat) : PhysPageNum := ⟨v &&& ((1 <<< ppnWidthSv39) - 1)⟩

/-- `From<usize> for VirtAddr`. -/
def VirtAddr.ofUsize (v : Nat) : VirtAddr := ⟨v &&& ((1 <<< vaWidthSv39) - 1)⟩

/-- `From<usize> for VirtPageNum`. -/
def VirtPageNum.ofUsize (v : Nat) : VirtPageNum := ⟨v &&& ((1 <<< vpnWidthSv39) - 1)⟩

@[simp] theorem PhysAddr.ofUsize_val (v : Nat) : (PhysAddr.ofUsize v).val = v % 2 ^ 56 := by
  show v &&& ((1 <<< 56) - 1) = _
  rw [Nat.shiftLeft_eq, Nat.one_mul, Nat.and_two_pow_sub_one_eq_mod]

@[simp] theorem PhysPageNum.ofUsize_val (v : Nat) :
    (PhysPageNum.ofUsize v).val = v % 2 ^ 44 := by
  show v &&& ((1 <<< 44) - 1) = _
  rw [Nat.shiftLeft_eq, Nat.one_mul, Nat.and_two_pow_sub_one_eq_mod]

@[simp] theorem VirtAddr.ofUsize_val (v : Nat) : (VirtAddr.ofUsize v).val = v % 2 ^ 39 := by
  show v &&& ((1 <<< 39) - 1) = _
  rw [Nat.shiftLeft_eq, Nat.one_mul, Nat.and_two_pow_sub_one_eq_mod]

@[simp] theorem VirtPageNum.ofUsize_val (v : Nat) :
    (VirtPageNum.ofUsize v).val = v % 2 ^ 27 := by
  show v &&& ((1 <<< 27) - 1) = _
  rw [Nat.shiftLeft_eq, Nat.one_mul, Nat.and_two_pow_sub_one_eq_mod]

theorem PhysPageNum.ofUsize_of_lt (v : Nat) (h : v < 2 ^ 44) : PhysPageNum.ofUsize v = ⟨v⟩ := by
  have hv := PhysPageNum.ofUsize_val v
  rw [Nat.mod_eq_of_lt h] at hv
  exact congrArg PhysPageNum.mk hv

/-- `From<VirtAddr> for usize`: an address with bit 38 set is sign-extended. -/
def VirtAddr.toUsize (v : VirtAddr) : Nat :=
  if v.val ≥ 1 <<< (vaWidthSv39 - 1) then v.val ||| (2 ^ 64 - (1 <<< vaWidthSv39))
  else v.val

theorem VirtAddr.toUsize_of_lt {v : VirtAddr} (h : v.val < 2 ^ 38) : v.toUsize = v.val := by
  simp only [toUsize, vaWidthSv39, Nat.shiftLeft_eq, Nat.one_mul]
  rw [if_neg (by norm_num; omega)]

/-- Bit 38 set: the upper bits are filled with ones, which adds them, as the low 39 bits
leave them clear. -/
theorem VirtAddr.toUsize_of_ge {v : VirtAddr} (h : 2 ^ 38 ≤ v.val) (h' : v.val < 2 ^ 39) :
    v.toUsize = v.val + (2 ^ 64 - 2 ^ 39) := by
  simp only [toUsize, vaWidthSv39, Nat.shiftLeft_eq, Nat.one_mul]
  rw [if_pos (by norm_num; omega), Nat.lor_comm,
    show 2 ^ 64 - 2 ^ (39 - 1 + 1) = 2 ^ 39 * (2 ^ 25 - 1) by norm_num,
    ← Nat.two_pow_add_eq_or_of_lt h' (2 ^ 25 - 1)]
  omega

/-! ## Rounding -/

/-- `VirtAddr::floor`. -/
def VirtAddr.floor (v : VirtAddr) : VirtPageNum := ⟨v.val / pageSize⟩

/-- `VirtAddr::ceil`: `(self.0 - 1 + PAGE_SIZE) / PAGE_SIZE`, wrapping. -/
def VirtAddr.ceil (v : VirtAddr) : VirtPageNum := ⟨wrap (wrapSub v.val 1 + pageSize) / pageSize⟩

/-- `VirtAddr::ceil_align`: the address rounded up to a page, kept in a `VirtPageNum`. -/
def VirtAddr.ceilAlign (v : VirtAddr) : VirtPageNum :=
  ⟨wrap (wrap (wrapSub v.val 1 + pageSize) / pageSize * pageSize)⟩

/-- `VirtAddr::page_offset`. -/
def VirtAddr.pageOffset (v : VirtAddr) : Nat := v.val &&& (pageSize - 1)

/-- `VirtAddr::aligned`. -/
def VirtAddr.aligned (v : VirtAddr) : Bool := v.pageOffset == 0

/-- `PhysAddr::floor`. -/
def PhysAddr.floor (v : PhysAddr) : PhysPageNum := ⟨v.val / pageSize⟩

/-- `PhysAddr::ceil`. -/
def PhysAddr.ceil (v : PhysAddr) : PhysPageNum := ⟨wrap (wrapSub v.val 1 + pageSize) / pageSize⟩

/-- `PhysAddr::page_offset`. -/
def PhysAddr.pageOffset (v : PhysAddr) : Nat := v.val &&& (pageSize - 1)

@[simp] theorem VirtAddr.floor_val (v : VirtAddr) : v.floor.val = v.val / 4096 := rfl

@[simp] theorem VirtAddr.pageOffset_eq (v : VirtAddr) : v.pageOffset = v.val % 4096 := by
  show v.val &&& (2 ^ 12 - 1) = v.val % 2 ^ 12
  rw [Nat.and_two_pow_sub_one_eq_mod]

/-- Below the wrap-around, `ceil` is the usual rounding up. -/
theorem VirtAddr.ceil_val {v : VirtAddr} (h : v.val < 2 ^ 64 - 4096) :
    v.ceil.val = (v.val + 4095) / 4096 := by
  simp only [ceil, pageSize]
  rcases Nat.eq_zero_or_pos v.val with h0 | hpos
  · rw [h0]; decide
  · rw [wrapSub_of_le (by omega) (by omega), wrap_of_lt (by omega)]
    congr 1
    omega

theorem VirtAddr.ceilAlign_val {v : VirtAddr} (h : v.val < 2 ^ 64 - 4096) :
    v.ceilAlign.val = (v.val + 4095) / 4096 * 4096 := by
  have hc : wrap (wrapSub v.val 1 + pageSize) / pageSize = (v.val + 4095) / 4096 :=
    VirtAddr.ceil_val h
  show wrap (wrap (wrapSub v.val 1 + pageSize) / pageSize * pageSize) = _
  rw [hc]
  exact wrap_of_lt (by simp only [pageSize]; omega)

/-! ## Page numbers and addresses -/

/-- `From<VirtAddr> for VirtPageNum`: asserts the address is page-aligned. -/
def VirtPageNum.ofVirtAddr (v : VirtAddr) : Except Panic VirtPageNum :=
  if v.pageOffset = 0 then .ok v.floor else .error (.notPageAligned v.val)

/-- `From<VirtPageNum> for VirtAddr`. -/
def VirtAddr.ofVirtPageNum (v : VirtPageNum) : VirtAddr := ⟨wrap (v.val <<< pageSizeBits)⟩

/-- `From<PhysPageNum> for PhysAddr`. -/
def PhysAddr.ofPhysPageNum (v : PhysPageNum) : PhysAddr := ⟨wrap (v.val <<< pageSizeBits)⟩

/-- `From<PhysAddr> for PhysPageNum`: asserts the address is page-aligned. -/
def PhysPageNum.ofPhysAddr (v : PhysAddr) : Except Panic PhysPageNum :=
  if v.pageOffset = 0 then .ok v.floor else .error (.notPageAligned v.val)

theorem VirtAddr.ofVirtPageNum_val {v : VirtPageNum} (h : v.val < 2 ^ 52) :
    (VirtAddr.ofVirtPageNum v).val = v.val * 4096 := by
  simp only [ofVirtPageNum, pageSizeBits, Nat.shiftLeft_eq]
  exact wrap_of_lt (by omega)

theorem PhysAddr.ofPhysPageNum_val {v : PhysPageNum} (h : v.val < 2 ^ 52) :
    (PhysAddr.ofPhysPageNum v).val = v.val * 4096 := by
  simp only [ofPhysPageNum, pageSizeBits, Nat.shiftLeft_eq]
  exact wrap_of_lt (by omega)

theorem VirtPageNum.ofVirtAddr_of_aligned {v : VirtAddr} (h : v.val % 4096 = 0) :
    VirtPageNum.ofVirtAddr v = .ok ⟨v.val / 4096⟩ := by
  simp [ofVirtAddr, h, VirtAddr.floor, pageSize]

/-- `VirtPageNum::indexes`: the loop `for i in (0..3).rev()` fills `idx[2]`, `idx[1]`,
`idx[0]` from the lowest nine bits up. -/
def VirtPageNum.indexes (vpn : VirtPageNum) : List Nat :=
  [(vpn.val >>> 18) &&& 511, (vpn.val >>> 9) &&& 511, vpn.val &&& 511]

theorem VirtPageNum.indexes_eq (vpn : VirtPageNum) :
    vpn.indexes = [vpn.val / 262144 % 512, vpn.val / 512 % 512, vpn.val % 512] := by
  simp only [indexes, Nat.shiftRight_eq_div_pow, show (511 : Nat) = 2 ^ 9 - 1 by norm_num,
    Nat.and_two_pow_sub_one_eq_mod]

/-- A page number below `2 ^ 27` is determined by its three indexes. -/
theorem VirtPageNum.eq_of_indexes_eq {v w : VirtPageNum} (hv : v.val < 2 ^ 27)
    (hw : w.val < 2 ^ 27) (h : v.indexes = w.indexes) : v = w := by
  obtain ⟨v⟩ := v
  obtain ⟨w⟩ := w
  rw [indexes_eq, indexes_eq] at h
  simp only [List.cons.injEq, and_true] at h hv hw
  simp only [mk.injEq]
  omega

/-! ## Ranges of page numbers -/

/-- `SimpleRange<VirtPageNum>`: `SimpleRange::new` asserts `start <= end`, so every range
carries it. -/
structure VPNRange where
  l : VirtPageNum
  r : VirtPageNum
  le : l.val ≤ r.val

/-- `SimpleRange::new`. -/
def VPNRange.new (start stop : VirtPageNum) : Except Panic VPNRange :=
  if h : start.val ≤ stop.val then .ok ⟨start, stop, h⟩
  else .error (.rangeStartAfterEnd start.val stop.val)

/-- The page numbers `SimpleRangeIterator` yields: `l, l + 1, …` until it reaches `r`. -/
def VPNRange.toList (range : VPNRange) : List VirtPageNum :=
  (List.range' range.l.val (range.r.val - range.l.val)).map VirtPageNum.mk

theorem VPNRange.mem_toList {range : VPNRange} {vpn : VirtPageNum} :
    vpn ∈ range.toList ↔ range.l.val ≤ vpn.val ∧ vpn.val < range.r.val := by
  have := range.le
  constructor
  · intro h
    obtain ⟨n, hn, rfl⟩ := List.mem_map.mp h
    simp only [List.mem_range'_1] at hn
    show range.l.val ≤ n ∧ n < range.r.val
    omega
  · rintro ⟨h1, h2⟩
    exact List.mem_map.mpr ⟨vpn.val, List.mem_range'_1.mpr ⟨h1, by omega⟩, rfl⟩

theorem VPNRange.toList_nodup (range : VPNRange) : range.toList.Nodup :=
  (List.nodup_range' ..).map fun _ _ h => VirtPageNum.mk.inj h

end NaiveOs
