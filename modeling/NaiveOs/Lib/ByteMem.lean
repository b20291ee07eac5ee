import Mathlib

/-!
# Byte-addressed memory with little-endian words

A memory gives every address a byte. Words are stored little-endian, the lowest byte at
the lowest address, as on RISC-V. Every write is a `store`: the bytes of one interval are
replaced and every other byte is kept, which is all the frame reasoning below needs.

- `readLE`/`writeLE`: an `n`-byte word; reading back a written word gives the value cut to
  `n` bytes (`readLE_writeLE`).
- `fill`, `writeBytes`, `bytes`: `memset`, `copy_from_slice` and the bytes of an interval.
- `writeWords`: consecutive words, as a `#[repr(C)]` struct of words is stored; each reads back
  cut to its width (`readLE_writeWords`).
- Reads of an interval depend only on the bytes in it (`readLE_congr`, `bytes_congr`), so a
  store to a disjoint interval changes nothing they see.
-/

/-- A byte-addressed memory. -/
def ByteMem := Nat → UInt8

namespace ByteMem

/-- Overwrite `[a, a + n)` with the bytes `f 0, …, f (n - 1)`. -/
def store (m : ByteMem) (a n : Nat) (f : Nat → UInt8) : ByteMem :=
  fun x => if a ≤ x ∧ x < a + n then f (x - a) else m x

/-- The little-endian value of the `n` bytes at `[a, a + n)`. -/
def readLE (m : ByteMem) (a : Nat) : Nat → Nat
  | 0 => 0
  | n + 1 => (m a).toNat + 256 * m.readLE (a + 1) n

/-- Store `v` little-endian in the `n` bytes at `a`, cut to `n` bytes. -/
def writeLE (m : ByteMem) (a n v : Nat) : ByteMem :=
  m.store a n fun i => UInt8.ofNat (v / 256 ^ i)

/-- `memset`: every byte of `[a, a + n)` becomes `b`. -/
def fill (m : ByteMem) (a n : Nat) (b : UInt8) : ByteMem :=
  m.store a n fun _ => b

/-- Copy the bytes of `src` to `[a, a + src.length)`. -/
def writeBytes (m : ByteMem) (a : Nat) (src : List UInt8) : ByteMem :=
  m.store a src.length fun i => src.getD i 0

/-- The `n` bytes at `[a, a + n)`, in address order. -/
def bytes (m : ByteMem) (a n : Nat) : List UInt8 :=
  (List.range n).map fun i => m (a + i)

/-! ## Stores -/

@[simp] theorem store_apply_inside (m : ByteMem) {a n : Nat} (f : Nat → UInt8) {i : Nat}
    (hi : i < n) : m.store a n f (a + i) = f i := by
  simp [store, hi]

theorem store_apply_outside (m : ByteMem) {a n : Nat} (f : Nat → UInt8) {x : Nat}
    (hx : x < a ∨ a + n ≤ x) : m.store a n f x = m x := by
  simp only [store]
  rw [if_neg (by omega)]

/-- Reading a filled interval gives its byte. -/
theorem fill_apply_inside (m : ByteMem) (a n : Nat) (b : UInt8) {i : Nat} (hi : i < n) :
    m.fill a n b (a + i) = b :=
  store_apply_inside m _ hi

/-- Copying an empty slice changes nothing. -/
@[simp] theorem writeBytes_nil (m : ByteMem) (a : Nat) : m.writeBytes a [] = m := by
  funext x
  exact store_apply_outside m _ (by simp only [List.length_nil]; omega)

/-! ## Words -/

/-- Two words with the same bytes have the same value, wherever they are. -/
theorem readLE_congr_at {m m' : ByteMem} {a b n : Nat}
    (h : ∀ i < n, m (a + i) = m' (b + i)) : m.readLE a n = m'.readLE b n := by
  induction n generalizing a b with
  | zero => rfl
  | succ n ih =>
    have h0 : m a = m' b := by simpa using h 0 (by omega)
    have hrest : m.readLE (a + 1) n = m'.readLE (b + 1) n :=
      ih fun i hi => by simpa [Nat.add_assoc, Nat.add_comm 1 i] using h (i + 1) (by omega)
    simp only [readLE, h0, hrest]

/-- A word is determined by the bytes of its interval. -/
theorem readLE_congr {m m' : ByteMem} {a n : Nat}
    (h : ∀ i < n, m (a + i) = m' (a + i)) : m.readLE a n = m'.readLE a n :=
  readLE_congr_at h

/-- A store to an interval disjoint from a word's leaves the word unchanged. -/
theorem readLE_store_of_disjoint (m : ByteMem) {a n b k : Nat} (f : Nat → UInt8)
    (hd : b + k ≤ a ∨ a + n ≤ b) : (m.store a n f).readLE b k = m.readLE b k :=
  readLE_congr fun _ _ => store_apply_outside m f (by omega)

/-- Reading back a written word gives the value cut to the word's bytes. -/
@[simp] theorem readLE_writeLE (m : ByteMem) (a n v : Nat) :
    (m.writeLE a n v).readLE a n = v % 256 ^ n := by
  induction n generalizing a v with
  | zero => simp [readLE, Nat.mod_one]
  | succ n ih =>
    -- the upper `n` bytes are the word `v / 256` written one address higher
    have hup : (m.writeLE a (n + 1) v).readLE (a + 1) n =
        (m.writeLE (a + 1) n (v / 256)).readLE (a + 1) n := by
      refine readLE_congr fun i hi => ?_
      have hi' : i + 1 < n + 1 := by omega
      rw [show a + 1 + i = a + (i + 1) by omega]
      simp only [writeLE]
      rw [store_apply_inside m _ hi', show a + (i + 1) = a + 1 + i by omega,
        store_apply_inside m _ hi, Nat.div_div_eq_div_mul, Nat.pow_succ, Nat.mul_comm 256]
    have hlow : ((m.writeLE a (n + 1) v) a).toNat = v % 256 := by
      have := store_apply_inside m (a := a) (fun i => UInt8.ofNat (v / 256 ^ i))
        (show 0 < n + 1 by omega)
      simp only [Nat.add_zero] at this
      simp [writeLE, this]
    rw [readLE, hup, ih, hlow, Nat.pow_succ, Nat.mul_comm (256 ^ n) 256, Nat.mod_mul]

/-- A word inside a zero-filled interval reads as zero. -/
theorem readLE_fill_zero (m : ByteMem) {a n b k : Nat} (hin : a ≤ b ∧ b + k ≤ a + n) :
    (m.fill a n 0).readLE b k = 0 := by
  have hz : (m.fill a n 0).readLE b k = ByteMem.readLE (fun _ => 0) b k :=
    readLE_congr fun i hi => by
      simp only [fill, store]
      rw [if_pos (by omega)]
  rw [hz]
  clear hz hin
  induction k generalizing b with
  | zero => rfl
  | succ k ih => simp [readLE, ih]

/-! ## Byte intervals -/

@[simp] theorem bytes_length (m : ByteMem) (a n : Nat) : (m.bytes a n).length = n := by
  simp [bytes]

theorem bytes_congr {m m' : ByteMem} {a n : Nat}
    (h : ∀ i < n, m (a + i) = m' (a + i)) : m.bytes a n = m'.bytes a n := by
  refine List.map_congr_left fun i hi => ?_
  exact h i (List.mem_range.mp hi)

theorem writeBytes_apply_inside (m : ByteMem) (a : Nat) (src : List UInt8) {i : Nat}
    (hi : i < src.length) : m.writeBytes a src (a + i) = src[i] := by
  simp [writeBytes, hi]

/-- Reading back a copied slice gives the slice. -/
@[simp] theorem bytes_writeBytes (m : ByteMem) (a : Nat) (src : List UInt8) :
    (m.writeBytes a src).bytes a src.length = src := by
  refine List.ext_getElem (by simp) fun i h1 h2 => ?_
  simp only [bytes, List.getElem_map, List.getElem_range, writeBytes]
  rw [store_apply_inside m _ h2]
  simp [h2]

theorem getElem_bytes (m : ByteMem) (a n i : Nat) (h : i < (m.bytes a n).length) :
    (m.bytes a n)[i] = m (a + i) := by
  simp [bytes]

/-! ## Byte-by-byte writes -/

/-- One-byte stores, in order: each pair writes its byte at its address, a later pair
overwriting an earlier one at the same address. -/
def scatter (m : ByteMem) (ws : List (Nat × UInt8)) : ByteMem :=
  ws.foldl (fun m w => m.store w.1 1 fun _ => w.2) m

@[simp] theorem scatter_nil (m : ByteMem) : m.scatter [] = m := rfl

@[simp] theorem scatter_cons (m : ByteMem) (w : Nat × UInt8) (ws : List (Nat × UInt8)) :
    m.scatter (w :: ws) = (m.store w.1 1 fun _ => w.2).scatter ws := rfl

theorem scatter_append (m : ByteMem) (ws ws' : List (Nat × UInt8)) :
    m.scatter (ws ++ ws') = (m.scatter ws).scatter ws' := List.foldl_append

/-- Copying a slice is writing its bytes one by one, at consecutive addresses. -/
theorem writeBytes_eq_scatter (m : ByteMem) (a : Nat) (src : List UInt8) :
    m.writeBytes a src = m.scatter ((List.range' a src.length).zip src) := by
  induction src generalizing a m with
  | nil =>
    funext x
    simp [writeBytes, store]
  | cons b src ih =>
    rw [List.length_cons, List.range'_succ, List.zip_cons_cons, scatter_cons, ← ih]
    funext x
    simp only [writeBytes, store, List.length_cons]
    by_cases hxa : x = a
    · subst hxa
      simp
    · by_cases hin : a + 1 ≤ x ∧ x < a + 1 + src.length
      · rw [if_pos (by omega), if_pos hin,
          show x - a = x - (a + 1) + 1 by omega, List.getD_cons_succ]
      · rw [if_neg (by omega), if_neg hin, if_neg (by omega)]

/-! ## Consecutive words -/

/-- Store the words `ws`, `n` bytes each, little-endian from `a` on. -/
def writeWords (m : ByteMem) (a n : Nat) : List Nat → ByteMem
  | [] => m
  | w :: ws => (m.writeLE a n w).writeWords (a + n) n ws

/-- Words stored from `a` on leave every word below `a` as it was. -/
theorem readLE_writeWords_below (m : ByteMem) {a n b k : Nat} (ws : List Nat) (h : b + k ≤ a) :
    (m.writeWords a n ws).readLE b k = m.readLE b k := by
  induction ws generalizing m a with
  | nil => rfl
  | cons w ws ih =>
    rw [writeWords, ih _ (by omega)]
    exact readLE_store_of_disjoint m _ (.inl h)

/-- The `j`-th stored word reads back cut to `n` bytes. -/
theorem readLE_writeWords (m : ByteMem) (a n : Nat) (ws : List Nat) {j : Nat}
    (hj : j < ws.length) : (m.writeWords a n ws).readLE (a + n * j) n = ws[j] % 256 ^ n := by
  induction ws generalizing m a j with
  | nil => simp at hj
  | cons w ws ih =>
    cases j with
    | zero =>
      -- the later words lie above the first
      rw [writeWords, readLE_writeWords_below _ _ (by omega), Nat.mul_zero, Nat.add_zero,
        readLE_writeLE, List.getElem_cons_zero]
    | succ j =>
      rw [writeWords, show a + n * (j + 1) = a + n + n * j by ring]
      exact ih _ _ (by simpa using hj)

end ByteMem
