import NaiveOs.Lib.ByteMem
import NaiveOs.Lib.Triple
import NaiveOs.Mm.Address

/-!
# The frame allocator (`mm/frame_allocator.rs`)

`StackFrameAllocator` hands out the frames of `[current, end)` one by one and keeps the
frames given back in a stack `recycled`, which it serves first. The set of frames it
considers in use is implicit: a frame `x` is *owned* when `x < current` and `x` is not in
`recycled` (`Owns`). `dealloc` checks exactly ownership, so

- `alloc` returns a frame that was not owned and owns it afterwards (`alloc_owns`),
- `dealloc x` returns iff `x` is owned and disowns it (`dealloc_eq_ok_iff`),
- `recycled` never holds a duplicate and stays below `current` (`Inv`, `inv_alloc`,
  `inv_dealloc`).

Ownership is not allocation: every frame below the first one handed out is owned without
ever having been allocated, and `dealloc` accepts it (`dealloc_below_range`).

The physical machine is the byte memory together with the allocator (`Machine`);
`frame_alloc` wraps a frame in a `FrameTracker`, whose constructor zeroes the frame.
-/

namespace NaiveOs

/-- `StackFrameAllocator`. -/
structure StackFrameAllocator where
  current : Nat
  «end» : Nat
  recycled : List Nat
  deriving DecidableEq, Repr

namespace StackFrameAllocator

/-- `FrameAllocator::new`. -/
def new : StackFrameAllocator := ⟨0, 0, []⟩

/-- `StackFrameAllocator::init`. -/
def init (fa : StackFrameAllocator) (l r : PhysPageNum) : StackFrameAllocator :=
  { fa with current := l.val, «end» := r.val }

/-- `FrameAllocator::alloc`: pop `recycled`, else take `current`, else `None`. -/
def alloc (fa : StackFrameAllocator) : Option PhysPageNum × StackFrameAllocator :=
  match fa.recycled with
  | ppn :: rest => (some (PhysPageNum.ofUsize ppn), { fa with recycled := rest })
  | [] =>
    if fa.current = fa.«end» then (none, fa)
    else (some (PhysPageNum.ofUsize fa.current), { fa with current := fa.current + 1 })

/-- `FrameAllocator::dealloc`: the validity check is `ppn >= current` or `ppn` already
recycled. -/
def dealloc (fa : StackFrameAllocator) (ppn : PhysPageNum) : Except Panic StackFrameAllocator :=
  if ppn.val ≥ fa.current ∨ ppn.val ∈ fa.recycled then .error (.frameNotAllocated ppn.val)
  else .ok { fa with recycled := ppn.val :: fa.recycled }

/-- The frames the allocator treats as in use. -/
def Owns (fa : StackFrameAllocator) (x : Nat) : Prop := x < fa.current ∧ x ∉ fa.recycled

instance (fa : StackFrameAllocator) (x : Nat) : Decidable (fa.Owns x) :=
  inferInstanceAs (Decidable (_ ∧ _))

/-- The allocator's invariant: no duplicate in `recycled`, all of it below `current`,
`current` not past `end`, and everything below `2 ^ 44` so that the `PhysPageNum`
conversion in `alloc` is the identity. -/
structure Inv (fa : StackFrameAllocator) : Prop where
  nodup : fa.recycled.Nodup
  recycled_lt : ∀ x ∈ fa.recycled, x < fa.current
  current_le : fa.current ≤ fa.«end»
  end_le : fa.«end» ≤ 2 ^ 44

/-- Every frame the allocator owns is below `2 ^ 44`. -/
theorem Inv.lt_of_owns {fa : StackFrameAllocator} (hi : fa.Inv) {x : Nat} (h : fa.Owns x) :
    x < 2 ^ 44 :=
  calc x < fa.current := h.1
    _ ≤ fa.«end» := hi.current_le
    _ ≤ 2 ^ 44 := hi.end_le

/-- The number of frames `alloc` can still hand out. -/
def free (fa : StackFrameAllocator) : Nat := fa.recycled.length + (fa.«end» - fa.current)

theorem inv_init {l r : PhysPageNum} (hlr : l.val ≤ r.val) (hr : r.val ≤ 2 ^ 44) :
    (new.init l r).Inv :=
  ⟨List.nodup_nil, by simp [new, init], hlr, hr⟩

/-! ## `alloc` -/

/-- The three branches of `alloc`. -/
theorem alloc_cases (fa : StackFrameAllocator) :
    (fa.recycled = [] ∧ fa.current = fa.«end» ∧ fa.alloc = (none, fa)) ∨
    (fa.recycled = [] ∧ fa.current ≠ fa.«end» ∧
      fa.alloc = (some (PhysPageNum.ofUsize fa.current), { fa with current := fa.current + 1 })) ∨
    (∃ q rest, fa.recycled = q :: rest ∧
      fa.alloc = (some (PhysPageNum.ofUsize q), { fa with recycled := rest })) := by
  rcases hrec : fa.recycled with _ | ⟨q, rest⟩
  · by_cases hce : fa.current = fa.«end»
    · exact .inl ⟨rfl, hce, by simp [alloc, hrec, hce]⟩
    · exact .inr (.inl ⟨rfl, hce, by simp [alloc, hrec, hce]⟩)
  · exact .inr (.inr ⟨q, rest, rfl, by simp [alloc, hrec]⟩)

theorem inv_alloc {fa : StackFrameAllocator} (hi : fa.Inv) : fa.alloc.2.Inv := by
  rcases alloc_cases fa with ⟨-, -, h⟩ | ⟨hrec, hce, h⟩ | ⟨q, rest, hrec, h⟩ <;> rw [h]
  · exact hi
  · have hle := hi.current_le
    refine ⟨by simp [hrec], by simp [hrec], ?_, hi.end_le⟩
    show fa.current + 1 ≤ fa.«end»
    omega
  · have hnd := hi.nodup
    rw [hrec] at hnd
    exact ⟨(List.nodup_cons.mp hnd).2,
      fun x hx => hi.recycled_lt x (by simp [hrec, hx]), hi.current_le, hi.end_le⟩

/-- What `alloc` does from an invariant state: either it is out of frames and changes
nothing, or it returns a frame `p` it did not own and owns afterwards, all other
ownership unchanged. -/
theorem alloc_spec {fa : StackFrameAllocator} (hi : fa.Inv) :
    (fa.alloc = (none, fa) ∧ fa.recycled = [] ∧ fa.current = fa.«end») ∨
    ∃ p fa', fa.alloc = (some p, fa') ∧ ¬ fa.Owns p.val ∧ fa'.Owns p.val ∧
      (∀ x, x ≠ p.val → (fa'.Owns x ↔ fa.Owns x)) ∧ fa'.«end» = fa.«end» := by
  have hle := hi.current_le
  have hend := hi.end_le
  rcases alloc_cases fa with ⟨hrec, hce, h⟩ | ⟨hrec, hce, h⟩ | ⟨q, rest, hrec, h⟩
  · exact .inl ⟨h, hrec, hce⟩
  · -- a fresh frame from `[current, end)`
    rw [PhysPageNum.ofUsize_of_lt fa.current (by omega)] at h
    refine .inr ⟨_, _, h, ?_, ?_, ?_, rfl⟩
    · simp [Owns]
    · simp [Owns, hrec]
    · intro x (hx : x ≠ fa.current)
      simp only [Owns, hrec, List.not_mem_nil, not_false_eq_true, and_true]
      omega
  · -- the top of the recycled stack
    have hq : q < fa.current := hi.recycled_lt q (by simp [hrec])
    have hnd : q ∉ rest := by
      have := hi.nodup
      rw [hrec] at this
      exact (List.nodup_cons.mp this).1
    rw [PhysPageNum.ofUsize_of_lt q (by omega)] at h
    refine .inr ⟨_, _, h, ?_, ⟨hq, hnd⟩, ?_, rfl⟩
    · simp [Owns, hrec]
    · intro x hx
      simp only [Owns, hrec, List.mem_cons, hx, false_or]

/-! ## `dealloc` -/

theorem dealloc_eq_ok_iff {fa : StackFrameAllocator} {ppn : PhysPageNum} :
    (∃ fa', fa.dealloc ppn = .ok fa') ↔ fa.Owns ppn.val := by
  unfold dealloc Owns
  by_cases h : ppn.val ≥ fa.current ∨ ppn.val ∈ fa.recycled
  · simp only [h, ↓reduceIte, reduceCtorEq, exists_false, false_iff, not_and, not_not]
    intro hlt
    exact h.resolve_left (Nat.not_le.mpr hlt)
  · simp only [h, ↓reduceIte, Except.ok.injEq, exists_eq', true_iff]
    rw [not_or, not_le] at h
    exact h

theorem dealloc_spec {fa fa' : StackFrameAllocator} {ppn : PhysPageNum}
    (h : fa.dealloc ppn = .ok fa') :
    fa.Owns ppn.val ∧ ¬ fa'.Owns ppn.val ∧ (∀ x, x ≠ ppn.val → (fa'.Owns x ↔ fa.Owns x)) ∧
      fa'.current = fa.current ∧ fa'.«end» = fa.«end» := by
  unfold dealloc at h
  split at h
  · cases h
  · rename_i hc
    cases h
    rw [not_or, not_le] at hc
    refine ⟨hc, by simp [Owns], fun x hx => ?_, rfl, rfl⟩
    simp [Owns, hx]

theorem inv_dealloc {fa fa' : StackFrameAllocator} {ppn : PhysPageNum} (hi : fa.Inv)
    (h : fa.dealloc ppn = .ok fa') : fa'.Inv := by
  unfold dealloc at h
  split at h
  · cases h
  · rename_i hc
    cases h
    rw [not_or, not_le] at hc
    refine ⟨List.nodup_cons.mpr ⟨hc.2, hi.nodup⟩, fun x hx => ?_, hi.current_le, hi.end_le⟩
    rcases List.mem_cons.mp hx with rfl | hx
    · exact hc.1
    · exact hi.recycled_lt x hx

/-- `dealloc` accepts a frame below the range handed to `init` although `alloc` never
returned it, and `alloc` then returns that frame. -/
theorem dealloc_below_range {fa : StackFrameAllocator} {ppn : PhysPageNum}
    (hlow : ppn.val < fa.current) (hfree : ppn.val ∉ fa.recycled) :
    fa.dealloc ppn = .ok { fa with recycled := ppn.val :: fa.recycled } := by
  simp [dealloc, hfree]
  omega

/-! ## Runs of calls

A frame is *allocated* when `alloc` returned it and no `dealloc` has taken it back since.
`runTracked` carries the allocated frames beside the allocator. `Tracks l r` ties the two together:
from `init(l, r)`, as long as every `dealloc` takes back an allocated frame (which is how
`FrameTracker::drop` calls it), the owned frames of `[l, ∞)` are exactly the allocated
ones, so `alloc` is sound (`alloc_of_tracks`). The check in `dealloc` does not test
`ppn < l`, and that is the one place where ownership and allocation part
(`dealloc_accepts_unallocated`). -/

/-- A call of the allocator's interface. -/
inductive AllocCall where
  | alloc
  | dealloc (ppn : PhysPageNum)

/-- Run calls from `fa`, tracking `A`, the frames returned by `alloc` and not since passed
to `dealloc`. -/
def runTracked : StackFrameAllocator → List Nat → List AllocCall →
    Except Panic (StackFrameAllocator × List Nat)
  | fa, A, [] => .ok (fa, A)
  | fa, A, .alloc :: cs =>
    match fa.alloc with
    | (some p, fa') => runTracked fa' (p.val :: A) cs
    | (none, fa') => runTracked fa' A cs
  | fa, A, .dealloc ppn :: cs => do
    let fa' ← fa.dealloc ppn
    runTracked fa' (A.erase ppn.val) cs

/-- The allocated set `A` is what the allocator owns in `[l, ∞)`, and nothing below `l`
has been given back. -/
structure Tracks (l r : Nat) (fa : StackFrameAllocator) (A : List Nat) : Prop where
  inv : fa.Inv
  end_eq : fa.«end» = r
  l_le : l ≤ fa.current
  nodup : A.Nodup
  allocated_owned : ∀ x ∈ A, fa.Owns x ∧ l ≤ x
  owned_allocated : ∀ x, l ≤ x → fa.Owns x → x ∈ A
  recycled_ge : ∀ x ∈ fa.recycled, l ≤ x

theorem tracks_init {l r : PhysPageNum} (hlr : l.val ≤ r.val) (hr : r.val ≤ 2 ^ 44) :
    Tracks l.val r.val (new.init l r) [] where
  inv := inv_init hlr hr
  end_eq := rfl
  l_le := le_rfl
  nodup := List.nodup_nil
  allocated_owned := by simp
  owned_allocated := fun x hx ho => absurd ho.1 (by simp [init]; omega)
  recycled_ge := by simp [new, init]

/-- `alloc` keeps `Tracks`: a returned frame lies in `[l, r)`, was not allocated, and is
allocated afterwards; `None` means every frame of `[l, r)` is allocated. -/
theorem tracks_alloc {l r : Nat} {fa : StackFrameAllocator} {A : List Nat}
    (ht : Tracks l r fa A) :
    (fa.alloc.1 = none → (∀ x, l ≤ x → x < r → x ∈ A) ∧ Tracks l r fa.alloc.2 A) ∧
    (∀ p, fa.alloc.1 = some p → l ≤ p.val ∧ p.val < r ∧ p.val ∉ A ∧
      Tracks l r fa.alloc.2 (p.val :: A)) := by
  have hle := ht.inv.current_le
  have hend := ht.inv.end_le
  have hr := ht.end_eq
  have hl := ht.l_le
  rcases alloc_cases fa with ⟨hrec, hce, h⟩ | ⟨hrec, hce, h⟩ | ⟨q, rest, hrec, h⟩ <;> rw [h]
  · refine ⟨fun _ => ⟨fun x hlx hxr => ht.owned_allocated x hlx ⟨by omega, by simp [hrec]⟩, ht⟩,
      fun p hp => by cases hp⟩
  · -- a fresh frame: `current`, which nothing allocated holds
    rw [PhysPageNum.ofUsize_of_lt fa.current (by omega)]
    refine ⟨fun h => (by simp at h), fun p hp => ?_⟩
    cases hp
    dsimp only
    have hfresh : fa.current ∉ A := fun hm => by
      have := (ht.allocated_owned _ hm).1.1
      omega
    refine ⟨hl, by omega, hfresh, ?_⟩
    have hinv := inv_alloc ht.inv
    rw [h, PhysPageNum.ofUsize_of_lt fa.current (by omega)] at hinv
    refine ⟨hinv, hr, by show l ≤ fa.current + 1; omega, List.nodup_cons.mpr ⟨hfresh, ht.nodup⟩,
      fun x hx => ?_, fun x hlx hx => ?_, ht.recycled_ge⟩
    · rcases List.mem_cons.mp hx with rfl | hx
      · exact ⟨⟨by show fa.current < fa.current + 1; omega, by simp [hrec]⟩, hl⟩
      · obtain ⟨⟨hlt, hnr⟩, hlx⟩ := ht.allocated_owned x hx
        exact ⟨⟨by show x < fa.current + 1; omega, hnr⟩, hlx⟩
    · obtain ⟨hlt, -⟩ := hx
      change x < fa.current + 1 at hlt
      by_cases hxc : x = fa.current
      · exact List.mem_cons.mpr (.inl hxc)
      · exact List.mem_cons_of_mem _
          (ht.owned_allocated x hlx ⟨by omega, by simp [hrec]⟩)
  · -- the top of the recycled stack: given back, so not allocated
    have hq : q < fa.current := ht.inv.recycled_lt q (by simp [hrec])
    have hlq : l ≤ q := ht.recycled_ge q (by simp [hrec])
    have hnd : q ∉ rest := by
      have := ht.inv.nodup
      rw [hrec] at this
      exact (List.nodup_cons.mp this).1
    rw [PhysPageNum.ofUsize_of_lt q (by omega)]
    refine ⟨fun h => (by simp at h), fun p hp => ?_⟩
    cases hp
    dsimp only
    have hqA : q ∉ A := fun hm => (ht.allocated_owned _ hm).1.2 (by simp [hrec])
    refine ⟨hlq, by omega, hqA, ?_⟩
    have hinv := inv_alloc ht.inv
    rw [h, PhysPageNum.ofUsize_of_lt q (by omega)] at hinv
    refine ⟨hinv, hr, hl, List.nodup_cons.mpr ⟨hqA, ht.nodup⟩, fun x hx => ?_,
      fun x hlx hx => ?_, fun x hx => ht.recycled_ge x (by simp [hrec, hx])⟩
    · rcases List.mem_cons.mp hx with rfl | hx
      · exact ⟨⟨hq, hnd⟩, hlq⟩
      · obtain ⟨⟨hlt, hnr⟩, hlx⟩ := ht.allocated_owned x hx
        exact ⟨⟨hlt, fun hm => hnr (by simp [hrec, hm])⟩, hlx⟩
    · obtain ⟨hlt, hnr⟩ := hx
      by_cases hxq : x = q
      · exact List.mem_cons.mpr (.inl hxq)
      · refine List.mem_cons_of_mem _ (ht.owned_allocated x hlx ⟨hlt, ?_⟩)
        simp only [hrec, List.mem_cons, hxq, false_or]
        exact hnr

/-- `dealloc` of an allocated frame returns and keeps `Tracks` with the frame taken out. -/
theorem tracks_dealloc {l r : Nat} {fa : StackFrameAllocator} {A : List Nat}
    (ht : Tracks l r fa A) {ppn : PhysPageNum} (hA : ppn.val ∈ A) :
    ∃ fa', fa.dealloc ppn = .ok fa' ∧ Tracks l r fa' (A.erase ppn.val) := by
  obtain ⟨⟨hlt, hnr⟩, hlx⟩ := ht.allocated_owned _ hA
  refine ⟨_, dealloc_below_range hlt hnr, ?_⟩
  refine ⟨inv_dealloc ht.inv (dealloc_below_range hlt hnr), ht.end_eq, ht.l_le,
    ht.nodup.erase _, fun x hx => ?_, fun x hlx' hx => ?_, fun x hx => ?_⟩
  · have hxA := (ht.nodup.mem_erase_iff.mp hx)
    obtain ⟨⟨hlt', hnr'⟩, hl'⟩ := ht.allocated_owned x hxA.2
    exact ⟨⟨hlt', by simp [hxA.1, hnr']⟩, hl'⟩
  · obtain ⟨hlt', hnr'⟩ := hx
    simp only [List.mem_cons, not_or] at hnr'
    exact ht.nodup.mem_erase_iff.mpr ⟨hnr'.1, ht.owned_allocated x hlx' ⟨hlt', hnr'.2⟩⟩
  · rcases List.mem_cons.mp hx with rfl | hx
    · exact hlx
    · exact ht.recycled_ge x hx

/-- The states, with the allocated set beside the allocator, that calls as `FrameTracker` makes
them reach from `init(l, r)`: `alloc`, whatever it returns, and `dealloc` of an allocated frame,
when it returns. -/
inductive Reachable (l r : PhysPageNum) : StackFrameAllocator × List Nat → Prop
  | init : Reachable l r (new.init l r, [])
  | alloc {fa : StackFrameAllocator} {A : List Nat} : Reachable l r (fa, A) →
      Reachable l r (fa.alloc.2, (fa.alloc.1.map PhysPageNum.val).toList ++ A)
  | dealloc {fa fa' : StackFrameAllocator} {A : List Nat} {ppn : PhysPageNum} :
      Reachable l r (fa, A) → ppn.val ∈ A → fa.dealloc ppn = .ok fa' →
      Reachable l r (fa', A.erase ppn.val)

/-- Every reachable state keeps `Tracks`: one case per call, from `tracks_alloc` and
`tracks_dealloc`. -/
theorem Reachable.tracks {l r : PhysPageNum} (hlr : l.val ≤ r.val) (hr : r.val ≤ 2 ^ 44)
    {s : StackFrameAllocator × List Nat} (h : Reachable l r s) : Tracks l.val r.val s.1 s.2 := by
  induction h with
  | init => exact tracks_init hlr hr
  | @alloc fa A _ ih =>
    obtain ⟨hnone, hsome⟩ := tracks_alloc ih
    cases ha : fa.alloc.1 with
    | none => simpa [ha] using (hnone ha).2
    | some p => simpa [ha] using (hsome p ha).2.2.2
  | @dealloc fa fa' A ppn _ hA hd ih =>
    obtain ⟨fa'', hd', ht⟩ := tracks_dealloc ih hA
    rw [hd] at hd'
    cases hd'
    exact ht

/-- **The frame allocator never hands out a frame twice.** From `init(l, r)` with `l ≤ r`, over
every sequence of calls in which each `dealloc` takes back a frame that `alloc` returned and that
was not given back since, in every state reached: no frame is allocated twice and every allocated
frame lies in `[l, r)`; `alloc` returns a frame of `[l, r)` that is not allocated, and `None` only
when every frame of `[l, r)` is; and `dealloc` of an allocated frame returns. -/
theorem frameAllocator_sound {l r : PhysPageNum} (hlr : l.val ≤ r.val) (hr : r.val ≤ 2 ^ 44)
    {fa : StackFrameAllocator} {A : List Nat} (h : Reachable l r (fa, A)) :
    A.Nodup ∧ (∀ x ∈ A, l.val ≤ x ∧ x < r.val) ∧
      (∀ p, fa.alloc.1 = some p → l.val ≤ p.val ∧ p.val < r.val ∧ p.val ∉ A) ∧
      (fa.alloc.1 = none → ∀ x, l.val ≤ x → x < r.val → x ∈ A) ∧
      ∀ ppn : PhysPageNum, ppn.val ∈ A → ∃ fa', fa.dealloc ppn = .ok fa' := by
  have ht := h.tracks hlr hr
  obtain ⟨hnone, hsome⟩ := tracks_alloc ht
  refine ⟨ht.nodup, fun x hx => ?_, fun p hp => ?_, fun hn => (hnone hn).1, fun ppn hA => ?_⟩
  · -- an allocated frame is owned, so below `current`, which has not passed `end = r`
    obtain ⟨⟨hlt, -⟩, hlx⟩ := ht.allocated_owned x hx
    have := ht.inv.current_le
    have := ht.end_eq
    exact ⟨hlx, by omega⟩
  · obtain ⟨hl, hlt, hA, -⟩ := hsome p hp
    exact ⟨hl, hlt, hA⟩
  · -- an allocated frame is owned, and `dealloc` accepts exactly the owned frames
    exact dealloc_eq_ok_iff.mpr (ht.allocated_owned _ hA).1

/-- After one `alloc` from `init(5, 10)`. -/
theorem frameAllocator_sound_after_alloc :
    let s := ((new.init ⟨5⟩ ⟨10⟩).alloc.2,
      ((new.init ⟨5⟩ ⟨10⟩).alloc.1.map PhysPageNum.val).toList ++ [])
    s.2.Nodup ∧ (∀ x ∈ s.2, 5 ≤ x ∧ x < 10) ∧
      (∀ p, s.1.alloc.1 = some p → 5 ≤ p.val ∧ p.val < 10 ∧ p.val ∉ s.2) ∧
      (s.1.alloc.1 = none → ∀ x, 5 ≤ x → x < 10 → x ∈ s.2) ∧
      ∀ ppn : PhysPageNum, ppn.val ∈ s.2 → ∃ fa', s.1.dealloc ppn = .ok fa' :=
  frameAllocator_sound (by decide) (by decide) (Reachable.alloc Reachable.init)

/-- From `init(5, 10)`, `dealloc(3)` returns although `alloc` never returned `3`, and the
next `alloc` hands out `3`, outside `[5, 10)`: the tracked allocated set ends as `[3]`. -/
theorem dealloc_accepts_unallocated :
    runTracked (new.init ⟨5⟩ ⟨10⟩) [] [.dealloc ⟨3⟩, .alloc] =
      .ok (⟨5, 10, []⟩, [3]) := by
  decide

end StackFrameAllocator

/-! ## The physical machine -/

/-- Physical memory and the global `FRAME_ALLOCATOR`: the state every function of `mm`
reads and writes. -/
structure Machine where
  mem : ByteMem
  frameAllocator : StackFrameAllocator

/-- A run from `m` to `m'` that frees no frame and writes only bytes of the frames `W`
(the byte at `a` lies in frame `a / 4096`). -/
structure Machine.Step (W : List PhysPageNum) (m m' : Machine) : Prop where
  owns : ∀ x, m.frameAllocator.Owns x → m'.frameAllocator.Owns x
  mem : ∀ a, (∀ q ∈ W, a / 4096 ≠ q.val) → m'.mem a = m.mem a

namespace Machine.Step

theorem refl (W : List PhysPageNum) (m : Machine) : Step W m m :=
  ⟨fun _ h => h, fun _ _ => rfl⟩

theorem trans {W W' : List PhysPageNum} {m m' m'' : Machine} (h : Step W m m')
    (h' : Step W' m' m'') : Step (W ++ W') m m'' where
  owns x hx := h'.owns x (h.owns x hx)
  mem a ha := by
    rw [h'.mem a fun q hq => ha q (List.mem_append_right _ hq),
      h.mem a fun q hq => ha q (List.mem_append_left _ hq)]

theorem mono {W W' : List PhysPageNum} {m m' : Machine} (h : Step W m m')
    (hsub : ∀ q ∈ W, q ∈ W') : Step W' m m' where
  owns := h.owns
  mem a ha := h.mem a fun q hq => ha q (hsub q hq)

/-- A frame outside `W` keeps all its bytes. -/
theorem frame_eq {W : List PhysPageNum} {m m' : Machine} (h : Step W m m') {q : Nat}
    (hq : ∀ w ∈ W, w.val ≠ q) {i : Nat} (hi : i < 4096) :
    m'.mem (q * 4096 + i) = m.mem (q * 4096 + i) := by
  refine h.mem _ fun w hw heq => hq w hw ?_
  rw [← heq]
  omega

end Machine.Step

/-- From `m` to `m'` a run took the frames `F` from the allocator (distinct, free in `m`, owned
in `m'`), freed nothing, and wrote only bytes of the frames `W` and `F`. -/
structure Machine.Takes (W F : List PhysPageNum) (m m' : Machine) : Prop where
  step : Machine.Step (W ++ F) m m'
  nodup : F.Nodup
  fresh : ∀ q ∈ F, ¬ m.frameAllocator.Owns q.val
  owned : ∀ q ∈ F, m'.frameAllocator.Owns q.val

namespace Machine.Takes

variable {W W' F G : List PhysPageNum} {m m' m'' : Machine}


/-- Two runs in sequence, the second writing only what the first could write or took. -/
theorem trans (h : Takes W F m m') (h' : Takes W' G m' m'') (hW : ∀ q ∈ W', q ∈ W ∨ q ∈ F) :
    Takes W (F ++ G) m m'' where
  step := (h.step.trans h'.step).mono fun q hq => by
    simp only [List.mem_append] at hq ⊢
    rcases hq with (hq | hq) | hq | hq
    · exact .inl hq
    · exact .inr (.inl hq)
    · exact (hW q hq).imp id .inl
    · exact .inr (.inr hq)
  -- what the first run took is owned when the second one starts
  nodup := List.nodup_append.mpr ⟨h.nodup, h'.nodup, by
    rintro a ha b hb rfl
    exact h'.fresh a hb (h.owned a ha)⟩
  fresh q hq := by
    rcases List.mem_append.mp hq with hq | hq
    · exact h.fresh q hq
    · exact fun hown => h'.fresh q hq (h.step.owns _ hown)
  owned q hq := by
    rcases List.mem_append.mp hq with hq | hq
    · exact h'.step.owns _ (h.owned q hq)
    · exact h'.owned q hq

/-- A run that takes no frame. -/
theorem of_step (h : Step W m m') : Takes W [] m m' :=
  ⟨h.mono fun _ hq => List.mem_append_left _ hq, List.nodup_nil,
    fun _ h => absurd h List.not_mem_nil, fun _ h => absurd h List.not_mem_nil⟩

theorem refl (W : List PhysPageNum) (m : Machine) : Takes W [] m m := of_step (Step.refl W m)

theorem perm (h : Takes W F m m') (hp : F.Perm G) : Takes W G m m' where
  step := h.step.mono fun q hq => by
    rcases List.mem_append.mp hq with hq | hq
    · exact List.mem_append_left _ hq
    · exact List.mem_append_right _ (hp.mem_iff.mp hq)
  nodup := hp.nodup_iff.mp h.nodup
  fresh q hq := h.fresh q (hp.mem_iff.mpr hq)
  owned q hq := h.owned q (hp.mem_iff.mpr hq)

theorem mono (h : Takes W F m m') (hW : ∀ q ∈ W, q ∈ W') : Takes W' F m m' :=
  { h with
    step := h.step.mono fun q hq => by
      rcases List.mem_append.mp hq with hq | hq
      · exact List.mem_append_left _ (hW q hq)
      · exact List.mem_append_right _ hq }

/-- A frame owned at the start and not in `W` is none of the taken ones, so it keeps its
bytes. -/
theorem frame_eq (h : Takes W F m m') {q : PhysPageNum} (hown : m.frameAllocator.Owns q.val)
    (hW : q ∉ W) {i : Nat} (hi : i < 4096) :
    m'.mem (q.val * 4096 + i) = m.mem (q.val * 4096 + i) := by
  refine h.step.frame_eq (fun w hw heq => ?_) hi
  have hwq : w = q := by cases w; cases q; simp_all
  rcases List.mem_append.mp hw with hw | hw
  · exact hW (hwq ▸ hw)
  · exact h.fresh w hw (hwq ▸ hown)

end Machine.Takes

/-- The physical address of the first byte of a frame. -/
def PhysPageNum.base (ppn : PhysPageNum) : Nat := (PhysAddr.ofPhysPageNum ppn).val

/-- `FrameTracker::new`: page cleaning, all 4096 bytes of the frame become zero. -/
def FrameTracker.new (ppn : PhysPageNum) : KernelM Machine PhysPageNum := do
  modify fun m => { m with mem := m.mem.fill ppn.base pageSize 0 }
  pure ppn

/-- `frame_alloc`: `FRAME_ALLOCATOR.lock().alloc().map(FrameTracker::new)`. -/
def frameAlloc : KernelM Machine (Option PhysPageNum) := do
  let m ← get
  let (r, fa) := m.frameAllocator.alloc
  set { m with frameAllocator := fa }
  match r with
  | some ppn => return some (← FrameTracker.new ppn)
  | none => return none

/-- `frame_dealloc`, called by `FrameTracker::drop`. -/
def frameDealloc (ppn : PhysPageNum) : KernelM Machine Unit := do
  let m ← get
  match m.frameAllocator.dealloc ppn with
  | .ok fa => set { m with frameAllocator := fa }
  | .error e => throw e

/-- Freeing a frame changes nothing but the allocator. -/
theorem frameDealloc_mem (ppn : PhysPageNum) (M : ByteMem) :
    Returns (fun m => m.mem = M) (frameDealloc ppn) fun _ m => m.mem = M := by
  have hget : Returns (fun m : Machine => m.mem = M) (get : KernelM Machine Machine)
      fun m _ => m.mem = M := Returns.get' fun _ hm => hm
  refine Returns.bind hget fun m => ?_
  split
  · exact Returns.set' fun _ hm => hm
  · exact Returns.throw'

theorem PhysPageNum.base_eq {ppn : PhysPageNum} (h : ppn.val < 2 ^ 44) :
    ppn.base = ppn.val * 4096 :=
  PhysAddr.ofPhysPageNum_val (by omega)

/-- `frame_alloc` from an invariant allocator: out of frames with nothing changed, or a
fresh frame, zeroed, owned from now on, and every other frame's ownership unchanged. -/
theorem frameAlloc_spec {m : Machine} (hi : m.frameAllocator.Inv) :
    (frameAlloc.run m = .ok (none, m) ∧ m.frameAllocator.recycled = [] ∧
        m.frameAllocator.current = m.frameAllocator.«end») ∨
    ∃ p fa', frameAlloc.run m = .ok (some p, ⟨m.mem.fill p.base pageSize 0, fa'⟩) ∧
      p.val < 2 ^ 44 ∧ ¬ m.frameAllocator.Owns p.val ∧ fa'.Owns p.val ∧
      (∀ x, x ≠ p.val → (fa'.Owns x ↔ m.frameAllocator.Owns x)) ∧ fa'.Inv ∧
      fa'.free + 1 = m.frameAllocator.free := by
  rcases StackFrameAllocator.alloc_spec hi with ⟨hnone, hrec, hce⟩ |
    ⟨p, fa', hsome, hno, hyes, hoth, -⟩
  · refine .inl ⟨?_, hrec, hce⟩
    simp [frameAlloc, hnone]
    rfl
  · have hinv : fa'.Inv := by
      have := StackFrameAllocator.inv_alloc hi
      rw [hsome] at this
      exact this
    have hp : p.val < 2 ^ 44 := by
      have h1 := hinv.current_le
      have h2 := hinv.end_le
      have h3 := hyes.1
      omega
    have hcount : fa'.free + 1 = m.frameAllocator.free := by
      rcases StackFrameAllocator.alloc_cases m.frameAllocator with
        ⟨-, -, h⟩ | ⟨hrec, hce, h⟩ | ⟨q, rest, hrec, h⟩ <;> rw [hsome] at h <;> cases h
      · have := hi.current_le
        simp [StackFrameAllocator.free, hrec]
        omega
      · simp [StackFrameAllocator.free, hrec]
        omega
    refine .inr ⟨p, fa', ?_, hp, hno, hyes, hoth, hinv, hcount⟩
    simp [frameAlloc, hsome, FrameTracker.new]
    rfl

/-- Zeroing a new frame writes only that frame. -/
theorem Machine.step_fill {m : Machine} {f : PhysPageNum} (hf : f.val < 2 ^ 44)
    {fa' : StackFrameAllocator} (hown : ∀ x, m.frameAllocator.Owns x → fa'.Owns x) :
    Machine.Step [f] m ⟨m.mem.fill f.base pageSize 0, fa'⟩ where
  owns := hown
  mem a ha := by
    have hne : a / 4096 ≠ f.val := ha f (List.mem_singleton_self f)
    show m.mem.store f.base pageSize (fun _ => 0) a = m.mem a
    refine ByteMem.store_apply_outside m.mem _ ?_
    rw [PhysPageNum.base_eq hf, pageSize]
    omega

/-- Copying at most a page of bytes into a frame writes only that frame. -/
theorem Machine.step_writeBytes (m : Machine) {q : PhysPageNum} (hq : q.val < 2 ^ 44)
    {src : List UInt8} (hlen : src.length ≤ pageSize) :
    Machine.Step [q] m { m with mem := m.mem.writeBytes q.base src } where
  owns _ h := h
  mem a ha := by
    have hne : a / 4096 ≠ q.val := ha q (List.mem_singleton_self q)
    show m.mem.store q.base src.length (fun i => src.getD i 0) a = m.mem a
    refine ByteMem.store_apply_outside m.mem _ ?_
    rw [PhysPageNum.base_eq hq]
    simp only [pageSize] at hlen
    omega

/-- Storing a word inside a frame writes only that frame. -/
theorem Machine.step_writeLE_at (m : Machine) {q : PhysPageNum} (hq : q.val < 2 ^ 44) {off : Nat}
    (hoff : off + 8 ≤ 4096) (v : Nat) :
    Machine.Step [q] m { m with mem := m.mem.writeLE (q.base + off) 8 v } where
  owns _ h := h
  mem a ha := by
    have hne : a / 4096 ≠ q.val := ha q (List.mem_singleton_self q)
    simp only [ByteMem.writeLE]
    refine ByteMem.store_apply_outside m.mem _ ?_
    rw [PhysPageNum.base_eq hq]
    omega

/-- A frame outside `W` keeps its page of bytes. -/
theorem Machine.Step.bytes_eq {W : List PhysPageNum} {m m' : Machine} (h : Machine.Step W m m')
    {q : PhysPageNum} (hq : q ∉ W) (hlt : q.val < 2 ^ 44) :
    m'.mem.bytes q.base pageSize = m.mem.bytes q.base pageSize := by
  rw [PhysPageNum.base_eq hlt]
  refine ByteMem.bytes_congr fun i hi => h.frame_eq (fun w hw heq => hq ?_) hi
  have hwq : w = q := by cases w; cases q; simp_all
  exact hwq ▸ hw

/-- A frame owned at the start and not in `W` keeps its page of bytes. -/
theorem Machine.Takes.bytes_eq {W F : List PhysPageNum} {m m' : Machine}
    (h : Machine.Takes W F m m') {q : PhysPageNum} (hown : m.frameAllocator.Owns q.val)
    (hW : q ∉ W) (hlt : q.val < 2 ^ 44) :
    m'.mem.bytes q.base pageSize = m.mem.bytes q.base pageSize :=
  h.step.bytes_eq (fun hq => (List.mem_append.mp hq).elim hW fun hF => h.fresh q hF hown) hlt

/-- With a frame free, `frame_alloc` returns one. -/
theorem frameAlloc_some {m : Machine} (hi : m.frameAllocator.Inv)
    (hfree : 0 < m.frameAllocator.free) :
    ∃ p fa', frameAlloc.run m = .ok (some p, ⟨m.mem.fill p.base pageSize 0, fa'⟩) ∧
      p.val < 2 ^ 44 ∧ ¬ m.frameAllocator.Owns p.val ∧ fa'.Owns p.val ∧
      (∀ x, x ≠ p.val → (fa'.Owns x ↔ m.frameAllocator.Owns x)) ∧ fa'.Inv ∧
      fa'.free + 1 = m.frameAllocator.free := by
  rcases frameAlloc_spec hi with ⟨-, hrec, hce⟩ | h
  · -- nothing recycled and the range used up: nothing is free
    simp [StackFrameAllocator.free, hrec, hce] at hfree
  · exact h

/-- With no frame free, `frame_alloc` returns `None` and changes nothing. -/
theorem frameAlloc_none {m : Machine} (hi : m.frameAllocator.Inv)
    (hfree : m.frameAllocator.free = 0) : frameAlloc.run m = .ok (none, m) := by
  rcases frameAlloc_spec hi with ⟨hrun, -, -⟩ | ⟨p, fa', -, -, -, -, -, -, hcount⟩
  · exact hrun
  · omega

/-- With no frame free, taking one with `unwrap`, as every caller does, panics. -/
theorem unwrap_frameAlloc_of_free {β : Type} {m : Machine} (hi : m.frameAllocator.Inv)
    (hfree : m.frameAllocator.free = 0) (k : PhysPageNum → KernelM Machine β) :
    (frameAlloc >>= fun o => unwrap o >>= k).run m = .error .unwrapNone := by
  rw [StateT.run_bind_of_ok (frameAlloc_none hi hfree)]
  rfl

/-- The frame `frame_alloc` returns is taken from the allocator, and only it is written. -/
theorem Machine.takes_fill {m : Machine} {f : PhysPageNum} (hf : f.val < 2 ^ 44)
    {fa' : StackFrameAllocator} (hno : ¬ m.frameAllocator.Owns f.val) (hyes : fa'.Owns f.val)
    (hoth : ∀ x, x ≠ f.val → (fa'.Owns x ↔ m.frameAllocator.Owns x)) :
    Machine.Takes [] [f] m ⟨m.mem.fill f.base pageSize 0, fa'⟩ where
  step := Machine.step_fill hf fun x hx => (hoth x fun h => hno (h ▸ hx)).mpr hx
  nodup := List.nodup_singleton f
  fresh q hq := by rw [List.mem_singleton] at hq; exact hq ▸ hno
  owned q hq := by rw [List.mem_singleton] at hq; exact hq ▸ hyes

/-- `frame_dealloc` of an owned frame: the allocator takes it back and nothing else changes. -/
theorem frameDealloc_spec {m : Machine} {ppn : PhysPageNum} (hi : m.frameAllocator.Inv)
    (hown : m.frameAllocator.Owns ppn.val) :
    ∃ fa', (frameDealloc ppn).run m = .ok ((), ⟨m.mem, fa'⟩) ∧ fa'.Inv ∧ ¬ fa'.Owns ppn.val ∧
      (∀ x, x ≠ ppn.val → (fa'.Owns x ↔ m.frameAllocator.Owns x)) ∧
      fa'.free = m.frameAllocator.free + 1 := by
  have hd := StackFrameAllocator.dealloc_below_range hown.1 hown.2
  obtain ⟨-, hno, hoth, -, -⟩ := StackFrameAllocator.dealloc_spec hd
  refine ⟨_, ?_, StackFrameAllocator.inv_dealloc hi hd, hno, hoth, ?_⟩
  · simp [frameDealloc, hd]
    rfl
  · simp only [StackFrameAllocator.free, List.length_cons]
    omega

end NaiveOs
