import Mathlib
import NaiveOs.Basic
import NaiveOs.Lib.IndexLinks

/-!
# The block cache's LRU list (`fs/dev/block_cache.rs`)

`BlockCache` keeps `capacity` buffers and an `LRU` over their indices: a circular doubly linked
list in the two arrays `prev` and `next`, in which index 0 is both the list's sentinel and a
buffer. `get_buf` calls `visit(i)` on the buffer it hands out, which moves `i` right after 0,
and `get_unused` evicts `victim()`, the element before 0.

The list stands for a recency order: the indices `1, …, n - 1`, most recently visited first,
which a visit of `i` changes by moving `i` to the front (`touch`, `recency`). The arrays
*represent* an order `L` when they link the ring `0 :: L ++ [0]` and `0 :: L` lists each index
once (`Represents`). Then

- `new n` represents `[1, …, n - 1]` (`new_represents`), `visit` represents the touched order
  (`visit_represents`), and so every run of visits represents its `recency` (`visitAll_represents`);
- under a represented order, `next` and `prev` are inverse permutations with one cycle through 0,
  the order read off `next` is `L` (`Represents.ring_eq`) and `victim` is the last element of `L`
  (`Represents.victim_eq`);
- the recency order is sorted by the time of the last visit, never-visited indices last and the
  larger of them older (`recency_sorted`), so `victim` is the least recently used buffer
  (`lru_refines_recency`).

Index 0 is never moved, so once `n ≥ 2` buffer 0 is never the victim.
-/

namespace NaiveOs

open IndexLinks

/-- `v[i]` on a `Vec<usize>`. -/
def vecGet (v : List Nat) (i : Nat) : Except Panic Nat :=
  match v[i]? with
  | some a => .ok a
  | none => .error (.indexOutOfBounds i v.length)

/-- `v[i] = x` on a `Vec<usize>`. -/
def vecSet (v : List Nat) (i x : Nat) : Except Panic (List Nat) :=
  if i < v.length then .ok (v.set i x) else .error (.indexOutOfBounds i v.length)

theorem vecGet_of_getElem? {v : List Nat} {i a : Nat} (h : v[i]? = some a) : vecGet v i = pure a := by
  simp [vecGet, h]
  rfl

theorem vecSet_of_lt {v : List Nat} {i : Nat} (h : i < v.length) (x : Nat) :
    vecSet v i x = pure (v.set i x) := by
  simp [vecSet, h]
  rfl

/-- `(a..b).collect()`. -/
def rangeTo (a b : Nat) : List Nat := List.range' a (b - a)

/-- `LRU`: a doubly circular linked list over the buffer indices. -/
structure LRU where
  prev : List Nat
  next : List Nat
  deriving DecidableEq, Repr

namespace LRU

/-- `LRU::new`. The natural `size - 1` is the source's for every `size ≥ 1`; for `size = 0` the
source's wraps, `collect` asks for more memory than there is, and `BlockCache::new` panics. -/
def new (size : Nat) : LRU :=
  { prev := rangeTo (size - 1) size ++ rangeTo 0 (size - 1)
    next := rangeTo 1 size ++ rangeTo 0 1 }

/-- `LRU::_list_remove`. -/
def listRemove (l : LRU) (id : Nat) : Except Panic LRU := do
  let prev ← vecGet l.prev id
  let next ← vecGet l.next id
  let prevs ← vecSet l.prev next prev
  let nexts ← vecSet l.next prev next
  pure ⟨prevs, nexts⟩

/-- `LRU::_list_insert_head`. -/
def listInsertHead (l : LRU) (id : Nat) : Except Panic LRU := do
  let head ← vecGet l.next 0
  let prevs ← vecSet l.prev id 0
  let nexts ← vecSet l.next id head
  let nexts ← vecSet nexts 0 id
  let prevs ← vecSet prevs head id
  pure ⟨prevs, nexts⟩

/-- `LRU::visit`: move `id` to the head. -/
def visit (l : LRU) (id : Nat) : Except Panic LRU :=
  if id = 0 ∨ id ≥ l.prev.length then pure l
  else do
    let l ← l.listRemove id
    l.listInsertHead id

theorem visit_of_skip {l : LRU} {id : Nat} (h : id = 0 ∨ l.prev.length ≤ id) :
    l.visit id = .ok l := by
  simp only [visit, ge_iff_le, if_pos h]
  rfl

/-- `LRU::victim`: the element at the tail. -/
def victim (l : LRU) : Except Panic Nat := vecGet l.prev 0

/-- The `visit` calls of a run of `get_buf`. -/
def visitAll (l : LRU) (ids : List Nat) : Except Panic LRU := ids.foldlM visit l

example : (LRU.new 3).visitAll [2] = .ok ⟨[1, 2, 0], [2, 0, 1]⟩ := by decide

/-- The order the list holds: the indices met following `next` from 0 before coming back. -/
def ring (l : LRU) : List Nat :=
  (List.range (l.next.length - 1)).map fun j => (follow l.next)^[j + 1] 0

theorem new_prev {n : Nat} (hn : 1 ≤ n) : (new n).prev = (n - 1) :: List.range (n - 1) := by
  simp [new, rangeTo, List.range_eq_range', show n - (n - 1) = 1 by omega]

theorem new_next (n : Nat) : (new n).next = List.range' 1 (n - 1) ++ [0] := by
  simp [new, rangeTo]

theorem listRemove_eq {l : LRU} {id p q : Nat} (hp : l.prev[id]? = some p) (hq : l.next[id]? = some q)
    (hq' : q < l.prev.length) (hp' : p < l.next.length) :
    l.listRemove id = .ok ⟨l.prev.set q p, l.next.set p q⟩ := by
  simp [listRemove, vecGet_of_getElem? hp, vecGet_of_getElem? hq, vecSet_of_lt hq',
    vecSet_of_lt hp']
  rfl

theorem listInsertHead_eq {l : LRU} {id h : Nat} (hh : l.next[0]? = some h)
    (hi : id < l.prev.length) (hi' : id < l.next.length) (hh' : h < l.prev.length) :
    l.listInsertHead id = .ok ⟨(l.prev.set id 0).set h id, (l.next.set id h).set 0 id⟩ := by
  have h0 : 0 < l.next.length := (List.getElem?_eq_some_iff.mp hh).1
  simp [listInsertHead, vecGet_of_getElem? hh, vecSet_of_lt hi, vecSet_of_lt hi',
    vecSet_of_lt (by simpa using h0 : 0 < (l.next.set id h).length),
    vecSet_of_lt (by simpa using hh' : h < (l.prev.set id 0).length)]
  rfl

end LRU

/-! ## The recency order -/

/-- The recency order after a visit of `i` among `n` buffers: an index other than 0 moves to
the front. -/
def touch (n : Nat) (order : List Nat) (i : Nat) : List Nat :=
  if i = 0 ∨ n ≤ i then order else i :: order.erase i

/-- The recency order of `n` buffers after the visits `vs`, most recent first. -/
def recency (n : Nat) (vs : List Nat) : List Nat := vs.foldl (touch n) (List.range' 1 (n - 1))

/-- The position in `vs` of the last visit of `x`. -/
def lastVisit (vs : List Nat) (x : Nat) : Option Nat :=
  vs.zipIdx.foldl (fun acc (v, j) => if v = x then some j else acc) none

@[simp] theorem lastVisit_nil (x : Nat) : lastVisit [] x = none := rfl

theorem lastVisit_append (vs : List Nat) (i x : Nat) :
    lastVisit (vs ++ [i]) x = if i = x then some vs.length else lastVisit vs x := by
  simp [lastVisit, List.zipIdx_append, List.foldl_append]

theorem lastVisit_lt {vs : List Nat} {x j : Nat} (h : lastVisit vs x = some j) : j < vs.length := by
  induction vs using List.reverseRecOn generalizing j with
  | nil => simp at h
  | append_singleton vs i ih =>
    rw [lastVisit_append] at h
    split at h
    · cases h
      simp
    · have := ih h
      simp
      omega

/-- `x` was used less recently than `y`: its last visit came first, a never-visited index counts
as older than a visited one, and of two never-visited indices the larger is older. -/
def Older (vs : List Nat) (x y : Nat) : Prop :=
  match lastVisit vs x, lastVisit vs y with
  | none, none => y < x
  | none, some _ => True
  | some _, none => False
  | some a, some b => a < b

instance (vs : List Nat) (x y : Nat) : Decidable (Older vs x y) := by
  unfold Older
  split <;> infer_instance

/-- A visit of `i` changes no comparison between two other indices. -/
theorem older_append_iff {vs : List Nat} {i x y : Nat} (hx : x ≠ i) (hy : y ≠ i) :
    Older (vs ++ [i]) x y ↔ Older vs x y := by
  simp [Older, lastVisit_append, Ne.symm hx, Ne.symm hy]

/-- Right after its visit, `i` is the most recently used. -/
theorem older_append_self {vs : List Nat} {i x : Nat} (hx : x ≠ i) : Older (vs ++ [i]) x i := by
  unfold Older
  rw [lastVisit_append, lastVisit_append, if_neg (Ne.symm hx), if_pos rfl]
  cases h : lastVisit vs x with
  | none => trivial
  | some j => exact lastVisit_lt h

/-- `x` is the least recently used of the buffer indices `1, …, n - 1`. -/
def Oldest (n : Nat) (vs : List Nat) (x : Nat) : Prop :=
  0 < x ∧ x < n ∧ ∀ y, 0 < y → y < n → y ≠ x → Older vs x y

/-- Every index a visit order holds is a buffer index other than 0, held once, and each is more
recent than the ones after it. -/
structure Sorted (n : Nat) (vs : List Nat) (L : List Nat) : Prop where
  nodup : L.Nodup
  mem : ∀ x ∈ L, 0 < x ∧ x < n
  sorted : L.Pairwise fun a b => Older vs b a

theorem sorted_nil (n : Nat) : Sorted n [] (List.range' 1 (n - 1)) where
  nodup := List.nodup_range'
  mem x hx := by
    simp only [List.mem_range'] at hx
    omega
  sorted := by
    refine (List.pairwise_lt_range' 1).imp fun {a b} hab => ?_
    simpa [Older] using hab

theorem Sorted.touch {n : Nat} {vs L : List Nat} (h : Sorted n vs L) (i : Nat) :
    Sorted n (vs ++ [i]) (touch n L i) := by
  unfold NaiveOs.touch
  split
  · -- `i` is not held, so no comparison changes
    have hi : ∀ x ∈ L, x ≠ i := fun x hx => by have := h.mem x hx; omega
    exact ⟨h.nodup, h.mem, h.sorted.imp_of_mem fun {a b} ha hb hab =>
      (older_append_iff (hi b hb) (hi a ha)).mpr hab⟩
  · have hmem : ∀ x ∈ L.erase i, x ≠ i ∧ x ∈ L := fun x hx => (h.nodup.mem_erase_iff).mp hx
    refine ⟨?_, ?_, ?_⟩
    · exact List.nodup_cons.mpr ⟨fun hi => (hmem i hi).1 rfl, h.nodup.erase i⟩
    · intro x hx
      rcases List.mem_cons.mp hx with rfl | hx
      · omega
      · exact h.mem x (hmem x hx).2
    · refine List.pairwise_cons.mpr ⟨fun b hb => older_append_self (hmem b hb).1, ?_⟩
      exact ((h.sorted.sublist (L.erase_sublist)).imp_of_mem fun {a b} ha hb hab =>
        (older_append_iff (hmem b hb).1 (hmem a ha).1).mpr hab)

/-- **The recency order is sorted by last use.** -/
theorem recency_sorted (n : Nat) (vs : List Nat) : Sorted n vs (recency n vs) := by
  induction vs using List.reverseRecOn with
  | nil => exact sorted_nil n
  | append_singleton vs i ih =>
    rw [recency, List.foldl_append, List.foldl_cons, List.foldl_nil]
    exact ih.touch i

/-- In a sorted order of all the indices `1, …, n - 1`, the last one is the least recently used. -/
theorem Sorted.oldest_getLast {n : Nat} {vs L : List Nat} (h : Sorted n vs L)
    (hall : ∀ y, 0 < y → y < n → y ∈ L) (hL : L ≠ []) : Oldest n vs (L.getLast hL) := by
  have hv := h.mem _ (List.getLast_mem hL)
  refine ⟨hv.1, hv.2, fun y hy hyn hne => ?_⟩
  have hsplit := List.dropLast_append_getLast hL
  have hy' : y ∈ L.dropLast := by
    have hyL := hall y hy hyn
    rw [← hsplit, List.mem_append, List.mem_singleton] at hyL
    exact hyL.resolve_right hne
  have hs := h.sorted
  rw [← hsplit, List.pairwise_append] at hs
  exact hs.2.2 y hy' _ (List.mem_singleton_self _)

/-! ## The arrays represent the order -/

namespace LRU

/-- The arrays hold the order `L` of the indices other than 0: they link the ring
`0 :: L ++ [0]`, and `0 :: L` lists each of the `n` indices once. -/
structure Represents (l : LRU) (n : Nat) (L : List Nat) : Prop where
  length_prev : l.prev.length = n
  length_next : l.next.length = n
  perm : (0 :: L).Perm (List.range n)
  linked : Linked l.next l.prev (0 :: L ++ [0])

section Represents

variable {l : LRU} {n : Nat} {L : List Nat}

theorem Represents.mem_iff (h : l.Represents n L) {x : Nat} : x ∈ 0 :: L ↔ x < n := by
  rw [h.perm.mem_iff, List.mem_range]

theorem Represents.nodup (h : l.Represents n L) : (0 :: L).Nodup :=
  h.perm.nodup_iff.mpr List.nodup_range

theorem Represents.length (h : l.Represents n L) : L.length + 1 = n := by
  simpa using h.perm.length_eq

/-- The ring's elements but the last, and its elements but the first, are each listed once. -/
theorem Represents.ring_nodup (h : l.Represents n L) :
    (0 :: L ++ [0]).dropLast.Nodup ∧ (0 :: L ++ [0]).tail.Nodup := by
  refine ⟨?_, ?_⟩
  · rw [show 0 :: L ++ [0] = (0 :: L) ++ [0] from rfl, List.dropLast_concat]
    exact h.nodup
  · exact (List.perm_append_singleton 0 L).nodup_iff.mpr h.nodup

theorem new_represents {n : Nat} (hn : 1 ≤ n) : (new n).Represents n (List.range' 1 (n - 1)) where
  length_prev := by simp [new_prev hn]; omega
  length_next := by simp [new_next]; omega
  perm := by
    obtain ⟨m, rfl⟩ : ∃ m, n = m + 1 := ⟨n - 1, by omega⟩
    simp [List.range_eq_range', List.range'_succ]
  linked := by
    obtain ⟨m, rfl⟩ : ∃ m, n = m + 1 := ⟨n - 1, by omega⟩
    have hnext : (new (m + 1)).next = List.range' 1 m ++ [0] := by simpa using new_next (m + 1)
    have hprev : (new (m + 1)).prev = m :: List.range m := by simpa using new_prev hn
    -- the ring is `0, 1, …, m, 0`: each `k < m` links to `k + 1`, and `m` back to 0
    have hring : 0 :: List.range' 1 (m + 1 - 1) ++ [0] = List.range (m + 1) ++ [0] := by
      simp [List.range_eq_range', List.range'_succ]
    rw [hring, Linked, List.isChain_append, List.isChain_range_succ, hnext, hprev]
    refine ⟨fun k hk => ⟨?_, ?_⟩, .singleton 0, ?_⟩
    · rw [List.getElem?_append_left (by rw [List.length_range']; exact hk), List.getElem?_range' hk]
      congr 1
      omega
    · simp [hk]
    · intro x hx y hy
      obtain rfl : x = m := by simpa [List.getLast?_range] using hx.symm
      obtain rfl : y = 0 := by simpa using hy.symm
      refine ⟨?_, rfl⟩
      rw [List.getElem?_append_right (by simp)]
      simp

/-- `_list_remove` of an index held by the order `A ++ i :: B` links the ring without it. -/
theorem Represents.listRemove {A B : List Nat} {i : Nat} (h : l.Represents n (A ++ i :: B)) :
    ∃ l₁, l.listRemove i = .ok l₁ ∧ l₁.prev.length = n ∧ l₁.next.length = n ∧
      Linked l₁.next l₁.prev (0 :: (A ++ B) ++ [0]) := by
  -- the ring around `i`: `P ++ [p]` is `0 :: A` and `q :: Q` is `B ++ [0]`
  obtain ⟨P, p, hP⟩ : ∃ P p, 0 :: A = P ++ [p] :=
    (List.eq_nil_or_concat' (0 :: A)).resolve_left (List.cons_ne_nil 0 A)
  obtain ⟨q, Q, hQ⟩ : ∃ q Q, B ++ [0] = q :: Q := List.exists_cons_of_ne_nil (by simp)
  have hring : 0 :: (A ++ i :: B) ++ [0] = P ++ p :: i :: q :: Q := calc
    _ = (0 :: A) ++ i :: (B ++ [0]) := by simp
    _ = (P ++ [p]) ++ i :: q :: Q := by rw [hP, hQ]
    _ = _ := by simp
  have hring₁ : P ++ p :: q :: Q = 0 :: (A ++ B) ++ [0] := calc
    _ = (P ++ [p]) ++ q :: Q := by simp
    _ = (0 :: A) ++ (B ++ [0]) := by rw [hP, hQ]
    _ = _ := by simp
  have hw := h.linked
  obtain ⟨hd, ht⟩ := h.ring_nodup
  rw [hring] at hw hd ht
  have hpi : Link l.next l.prev p i := hw.link_mid
  have hiq : Link l.next l.prev i q := by
    have hw' : Linked l.next l.prev ((P ++ [p]) ++ i :: q :: Q) := by simpa using hw
    exact hw'.link_mid
  refine ⟨⟨l.prev.set q p, l.next.set p q⟩,
    listRemove_eq hpi.2 hiq.1 hiq.lt_prev hpi.lt_next, ?_, ?_, ?_⟩
  · simpa using h.length_prev
  · simpa using h.length_next
  · rw [← hring₁]
    exact hw.unlink hd ht

/-- `_list_insert_head` of an index outside the ring of `M` links the ring of `i :: M`. -/
theorem listInsertHead_represents {M : List Nat} {i : Nat} (hp : l.prev.length = n)
    (hn : l.next.length = n) (hM : Linked l.next l.prev (0 :: M ++ [0]))
    (hnd : (0 :: i :: M).Nodup) (hperm : (0 :: i :: M).Perm (List.range n)) :
    ∃ l', l.listInsertHead i = .ok l' ∧ l'.Represents n (i :: M) := by
  obtain ⟨hh, H, hH⟩ : ∃ hh H, M ++ [0] = hh :: H := List.exists_cons_of_ne_nil (by simp)
  have hring : 0 :: M ++ [0] = 0 :: hh :: H := by rw [List.cons_append, hH]
  rw [hring] at hM
  have h0 : Link l.next l.prev 0 hh := (linked_cons_cons.mp hM).1
  have hi : i < n := List.mem_range.mp (hperm.subset (by simp))
  obtain ⟨⟨h0i, h0M⟩, hiM, hMnd⟩ : (0 ≠ i ∧ 0 ∉ M) ∧ i ∉ M ∧ M.Nodup := by
    simpa using hnd
  -- the ring `0 :: hh :: H` lists `0 :: M` and `M ++ [0]` once each, and not `i`
  have hd : (0 :: hh :: H).dropLast.Nodup := by
    rw [← hring, List.dropLast_concat]
    exact List.nodup_cons.mpr ⟨h0M, hMnd⟩
  have ht : (hh :: H).Nodup := by
    rw [← hH]
    exact (List.perm_append_singleton 0 M).nodup_iff.mpr (List.nodup_cons.mpr ⟨h0M, hMnd⟩)
  have hi' : i ∉ 0 :: hh :: H := by
    rw [← hring]
    simp [hiM, Ne.symm h0i]
  have hlink := hM.insertAfter hd ht hi' (hn ▸ hi) (hp ▸ hi)
  refine ⟨_, listInsertHead_eq h0.1 (hp ▸ hi) (hn ▸ hi) h0.lt_prev, ?_⟩
  refine ⟨by simp [hp], by simp [hn], hperm, ?_⟩
  rw [show 0 :: (i :: M) ++ [0] = 0 :: i :: hh :: H by simp [hH]]
  exact hlink

/-- **One visit.** `visit i` represents the order touched by `i`. -/
theorem Represents.visit (h : l.Represents n L) (i : Nat) :
    ∃ l', l.visit i = .ok l' ∧ l'.Represents n (touch n L i) := by
  by_cases hskip : i = 0 ∨ n ≤ i
  · exact ⟨l, visit_of_skip (by rw [h.length_prev]; exact hskip), by simpa [touch, hskip] using h⟩
  -- `i` is held by the order: remove it, then insert it after 0
  have hin : i < n := by omega
  have hiL : i ∈ L := by simpa [show i ≠ 0 by omega] using h.mem_iff.mpr hin
  obtain ⟨A, B, rfl⟩ := List.append_of_mem hiL
  have hiA : i ∉ A := fun hA =>
    (List.nodup_append.mp (List.nodup_cons.mp h.nodup).2).2.2 i hA i (.head _) rfl
  obtain ⟨l₁, hl₁, hp₁, hn₁, hlink₁⟩ := h.listRemove
  have hperm : (0 :: i :: (A ++ B)).Perm (List.range n) :=
    (List.perm_middle.symm.cons 0).trans h.perm
  obtain ⟨l₂, hl₂, hrep⟩ :=
    listInsertHead_represents hp₁ hn₁ hlink₁ (hperm.nodup_iff.mpr List.nodup_range) hperm
  have herase : (A ++ i :: B).erase i = A ++ B := by
    rw [List.erase_append_right _ hiA, List.erase_cons_head]
  refine ⟨l₂, ?_, by simpa [touch, hskip, herase] using hrep⟩
  simp only [LRU.visit, h.length_prev, ge_iff_le, hskip, if_false, hl₁]
  exact hl₂

/-- **A run of visits** from a represented order represents the order touched by each. -/
theorem Represents.foldlM_visit (h : l.Represents n L) (vs : List Nat) :
    ∃ l', vs.foldlM LRU.visit l = .ok l' ∧ l'.Represents n (vs.foldl (touch n) L) := by
  induction vs generalizing l L with
  | nil => exact ⟨l, rfl, h⟩
  | cons i vs ih =>
    obtain ⟨l₁, hl₁, h₁⟩ := h.visit i
    obtain ⟨l₂, hl₂, h₂⟩ := ih h₁
    refine ⟨l₂, ?_, h₂⟩
    rw [List.foldlM_cons, hl₁]
    exact hl₂

theorem visitAll_represents {n : Nat} (hn : 1 ≤ n) (vs : List Nat) :
    ∃ l, (new n).visitAll vs = .ok l ∧ l.Represents n (recency n vs) :=
  (new_represents hn).foldlM_visit vs

/-! ### What a represented order says about the arrays -/

theorem Represents.mem_ring_tail_iff (h : l.Represents n L) {x : Nat} : x ∈ L ++ [0] ↔ x < n := by
  rw [(List.perm_append_singleton 0 L).mem_iff, h.mem_iff]

/-- Each index's successor is an index whose predecessor it is. -/
theorem Represents.next_inverse (h : l.Represents n L) :
    ∀ x < n, ∃ y < n, l.next[x]? = some y ∧ l.prev[y]? = some x := by
  intro x hx
  have hx' : x ∈ (0 :: L ++ [0]).dropLast := by
    rw [List.dropLast_concat]
    exact h.mem_iff.mpr hx
  obtain ⟨y, hy, hxy⟩ := h.linked.exists_next hx'
  exact ⟨y, h.mem_ring_tail_iff.mp hy, hxy⟩

/-- Each index's predecessor is an index whose successor it is. -/
theorem Represents.prev_inverse (h : l.Represents n L) :
    ∀ y < n, ∃ x < n, l.prev[y]? = some x ∧ l.next[x]? = some y := by
  intro y hy
  obtain ⟨x, hx, hxy⟩ := h.linked.exists_prev (h.mem_ring_tail_iff.mpr hy)
  rw [List.dropLast_concat] at hx
  exact ⟨x, h.mem_iff.mp hx, hxy.2, hxy.1⟩

/-- Following `next` from 0 meets every index within `n` steps: one cycle. -/
theorem Represents.one_cycle (h : l.Represents n L) :
    ∀ x < n, ∃ j < n, (follow l.next)^[j] 0 = x := by
  intro x hx
  obtain ⟨j, hj, rfl⟩ := List.getElem_of_mem (h.mem_iff.mpr hx)
  have hw : Linked l.next l.prev (0 :: (L ++ [0])) := h.linked
  refine ⟨j, h.length ▸ hj, ?_⟩
  rw [hw.iterate_follow j (by simp at hj ⊢; omega)]
  have hj' : j < ((0 :: L) ++ [0]).length := by simp at hj ⊢; omega
  show ((0 :: L) ++ [0])[j] = (0 :: L)[j]
  exact List.getElem_append_left hj

/-- The order read off `next` from 0 is the represented one. -/
theorem Represents.ring_eq (h : l.Represents n L) : l.ring = L := by
  have hw : Linked l.next l.prev (0 :: (L ++ [0])) := h.linked
  have hlen := h.length
  apply List.ext_getElem
  · simp [ring, h.length_next]
    omega
  · intro j hj _
    simp only [ring, List.getElem_map, List.getElem_range]
    rw [hw.iterate_follow (j + 1) (by simp at hj ⊢; omega)]
    exact List.getElem_append_left _

/-- `victim` reads the element before 0: the last of `0 :: L`. -/
theorem Represents.victim_eq (h : l.Represents n L) :
    l.victim = .ok ((0 :: L).getLast (List.cons_ne_nil 0 L)) := by
  have hsplit := List.dropLast_append_getLast (List.cons_ne_nil 0 L)
  have hw : Linked l.next l.prev
      ((0 :: L).dropLast ++ (0 :: L).getLast (List.cons_ne_nil 0 L) :: 0 :: []) := by
    have := h.linked
    rwa [← hsplit, List.append_assoc] at this
  exact vecGet_of_getElem? hw.link_mid.2

/-! ### The guarantees -/

/-- What the list guarantees after the visits `vs` of an `n`-buffer cache. -/
structure Guarantees (n : Nat) (vs : List Nat) (l : LRU) : Prop where
  /-- `next` and `prev` are inverse permutations of `{0, …, n - 1}`. -/
  next_inverse : ∀ x < n, ∃ y < n, l.next[x]? = some y ∧ l.prev[y]? = some x
  prev_inverse : ∀ y < n, ∃ x < n, l.prev[y]? = some x ∧ l.next[x]? = some y
  /-- Following `next` from 0 meets every index: the permutation is a single cycle. -/
  one_cycle : ∀ x < n, ∃ j < n, (follow l.next)^[j] 0 = x
  /-- The list holds the recency order of the visits. -/
  ring_eq : l.ring = recency n vs
  /-- A visit of `0 < i < n` makes `i` the successor of 0 and keeps the order of the others. -/
  visit_front : ∀ i, 0 < i → i < n →
    ∃ l', l.visit i = .ok l' ∧ l'.next[0]? = some i ∧ l'.ring = i :: l.ring.erase i
  /-- Any other visit changes nothing. -/
  visit_skip : ∀ i, i = 0 ∨ n ≤ i → l.visit i = .ok l
  /-- With two buffers or more, the victim is the least recently used index. -/
  victim_oldest : 2 ≤ n → ∃ v, l.victim = .ok v ∧ Oldest n vs v

theorem Represents.guarantees {vs : List Nat} (h : l.Represents n (recency n vs)) :
    Guarantees n vs l where
  next_inverse := h.next_inverse
  prev_inverse := h.prev_inverse
  one_cycle := h.one_cycle
  ring_eq := h.ring_eq
  visit_front i hi0 hin := by
    obtain ⟨l', hl', h'⟩ := h.visit i
    rw [touch, if_neg (by omega)] at h'
    exact ⟨l', hl', (linked_cons_cons.mp h'.linked).1.1, by rw [h'.ring_eq, h.ring_eq]⟩
  visit_skip i hi := visit_of_skip (by rw [h.length_prev]; exact hi)
  victim_oldest hn := by
    have hL : recency n vs ≠ [] := by
      intro he
      have := h.length
      rw [he] at this
      simp at this
      omega
    refine ⟨_, h.victim_eq, ?_⟩
    rw [List.getLast_cons hL]
    refine (recency_sorted n vs).oldest_getLast (fun y hy hyn => ?_) hL
    simpa [show y ≠ 0 by omega] using h.mem_iff.mpr hyn

end Represents

/-- **The LRU list refines the recency order.** For every capacity `n ≥ 1` and every run of
visits, `prev` and `next` stay inverse permutations forming one cycle through 0, the list holds
the recency order, a visit moves a buffer index right after 0 and ignores any other index, and
the victim is the least recently used buffer. -/
theorem lru_refines_recency (n : Nat) (hn : 1 ≤ n) (vs : List Nat) :
    ∃ l, (new n).visitAll vs = .ok l ∧ Guarantees n vs l := by
  obtain ⟨l, hl, h⟩ := visitAll_represents hn vs
  exact ⟨l, hl, h.guarantees⟩

theorem lru_refines_recency_three_buffers :
    1 ≤ 3 ∧ ∃ l, (new 3).visitAll [2, 1, 2] = .ok l ∧ Guarantees 3 [2, 1, 2] l :=
  ⟨by decide, lru_refines_recency 3 (by decide) [2, 1, 2]⟩

/-- Buffer 2, never visited, is the victim after visits of 3 and 1. -/
example : ((new 4).visitAll [3, 1]).bind victim = .ok 2 := by decide

end LRU

end NaiveOs
