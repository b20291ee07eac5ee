import Mathlib

/-!
# Doubly linked lists kept in two index arrays

A doubly linked list over the indices `0, …, n - 1` can be stored in two arrays: `next[x]` is
the element after `x` and `prev[y]` the element before `y`. An array here is a `List Nat`. A path
`x₀ x₁ … xₘ` is *linked* when each of its steps is recorded in both arrays (`Link`), so a ring
through the elements `r` is the linked path `r ++ [r.head]`.

- `Linked.congr`: a path stays linked under arrays that agree with the old ones where the path
  reads them: `next` at every element but the last, `prev` at every element but the first.
- `Linked.unlink`: the two writes that take `i` out of `… p i q …` link `… p q …`, on a path
  that lists its elements once apart from its ends.
- `Linked.insertAfter`: the four writes that put `i` between `a` and its successor `h` link
  `a i h …`.
- `Linked.exists_next`, `Linked.exists_prev`: along a linked path, `next` and `prev` are inverse.
- `Linked.iterate_follow`: following `next` from the start of a linked path visits the path in
  order.
-/

namespace IndexLinks

variable (next prev : List Nat)

/-- `y` follows `x`: `next[x] = y` and `prev[y] = x`. -/
def Link (x y : Nat) : Prop := next[x]? = some y ∧ prev[y]? = some x

instance (x y : Nat) : Decidable (Link next prev x y) := inferInstanceAs (Decidable (_ ∧ _))

/-- Every step of the path is a link. -/
def Linked (l : List Nat) : Prop := l.IsChain (Link next prev)

instance (l : List Nat) : Decidable (Linked next prev l) :=
  inferInstanceAs (Decidable (l.IsChain _))

/-- One step along `next`, reading `0` past the end of the array. -/
def follow (x : Nat) : Nat := next.getD x 0

variable {next prev}

theorem Link.lt_next {x y : Nat} (h : Link next prev x y) : x < next.length :=
  (List.getElem?_eq_some_iff.mp h.1).1

theorem Link.lt_prev {x y : Nat} (h : Link next prev x y) : y < prev.length :=
  (List.getElem?_eq_some_iff.mp h.2).1

@[simp] theorem linked_nil : Linked next prev [] := .nil

@[simp] theorem linked_singleton (x : Nat) : Linked next prev [x] := .singleton x

@[simp] theorem linked_cons_cons {x y : Nat} {l : List Nat} :
    Linked next prev (x :: y :: l) ↔ Link next prev x y ∧ Linked next prev (y :: l) :=
  List.isChain_cons_cons

/-! ## Frame -/

/-- **Frame rule.** A linked path reads `next` at its elements but the last and `prev` at its
elements but the first; arrays that agree there link it too. -/
theorem Linked.congr {next' prev' : List Nat} {l : List Nat} (h : Linked next prev l)
    (hn : ∀ x ∈ l.dropLast, next'[x]? = next[x]?) (hp : ∀ y ∈ l.tail, prev'[y]? = prev[y]?) :
    Linked next' prev' l := by
  induction h with
  | nil => exact .nil
  | singleton x => exact .singleton x
  | @cons_cons x y l hxy _ ih =>
    rw [List.dropLast_cons_cons] at hn
    refine .cons_cons ⟨?_, ?_⟩ (ih (fun z hz => hn z (.tail _ hz)) fun z hz => hp z ?_)
    · rw [hn x (.head _)]
      exact hxy.1
    · rw [hp y (.head _)]
      exact hxy.2
    · exact List.mem_cons_of_mem _ hz

/-- Writing `next` at `p` and `prev` at `q` keeps a path linked that reads neither. -/
theorem Linked.set {l : List Nat} {p q a b : Nat} (h : Linked next prev l)
    (hp : p ∉ l.dropLast) (hq : q ∉ l.tail) : Linked (next.set p a) (prev.set q b) l :=
  h.congr (fun x hx => List.getElem?_set_ne (by rintro rfl; exact hp hx))
    (fun y hy => List.getElem?_set_ne (by rintro rfl; exact hq hy))

/-! ## Unlinking and inserting

On a ring the elements but the last, and the elements but the first, are each listed once; these
are the hypotheses under which the writes of a removal or an insertion read nothing else. -/

theorem Linked.link_mid {U V : List Nat} {x y : Nat} (h : Linked next prev (U ++ x :: y :: V)) :
    Link next prev x y :=
  (List.isChain_append_cons_cons.mp h).2.1

/-- `_list_remove`: `prev[q] = p; next[p] = q` takes `i` out of the path `… p i q …`. -/
theorem Linked.unlink {U V : List Nat} {p i q : Nat}
    (h : Linked next prev (U ++ p :: i :: q :: V))
    (hd : (U ++ p :: i :: q :: V).dropLast.Nodup) (ht : (U ++ p :: i :: q :: V).tail.Nodup) :
    Linked (next.set p q) (prev.set q p) (U ++ p :: q :: V) := by
  -- `next` at `p` and `prev` at `q` are read by the new link only
  have hp : p ∉ U ∧ p ∉ (q :: V).dropLast := by
    rw [show (U ++ p :: i :: q :: V).dropLast = U ++ p :: i :: (q :: V).dropLast by simp] at hd
    simp only [List.nodup_append, List.nodup_cons, List.mem_cons] at hd
    grind
  have hq : q ∉ (U ++ [p]).tail ∧ q ∉ V := by
    cases U with
    | nil => simp_all
    | cons u U =>
      simp only [List.cons_append, List.tail_cons, List.nodup_append, List.nodup_cons,
        List.mem_cons] at ht ⊢
      grind
  obtain ⟨hU, hpi, hV⟩ := List.isChain_append_cons_cons.mp h
  obtain ⟨hiq, hV⟩ := List.isChain_cons_cons.mp hV
  refine List.isChain_append_cons_cons.mpr ⟨?_, ⟨?_, ?_⟩, ?_⟩
  · exact Linked.set hU (by rw [List.dropLast_concat]; exact hp.1) hq.1
  · exact List.getElem?_set_self hpi.lt_next
  · exact List.getElem?_set_self hiq.lt_prev
  · exact Linked.set hV hp.2 hq.2

/-- `_list_insert_head` after `a`: `prev[i] = a; next[i] = h; next[a] = i; prev[h] = i` puts
`i`, which the path does not hold, between `a` and its successor `h`. -/
theorem Linked.insertAfter {a h i : Nat} {H : List Nat} (hl : Linked next prev (a :: h :: H))
    (hd : (a :: h :: H).dropLast.Nodup) (ht : (h :: H).Nodup) (hi : i ∉ a :: h :: H)
    (hin : i < next.length) (hip : i < prev.length) :
    Linked ((next.set i h).set a i) ((prev.set i a).set h i) (a :: i :: h :: H) := by
  obtain ⟨hah, hH⟩ := linked_cons_cons.mp hl
  have haH : a ∉ (h :: H).dropLast := by
    rw [List.dropLast_cons_cons] at hd
    exact (List.nodup_cons.mp hd).1
  have hhH : h ∉ H := (List.nodup_cons.mp ht).1
  obtain ⟨hia, hih, hiH⟩ : i ≠ a ∧ i ≠ h ∧ i ∉ H := by simpa using hi
  -- the path after `h` reads neither array at `i`
  have hiH' : i ∉ (h :: H).dropLast := fun hm => hi (.tail _ (List.dropLast_subset _ hm))
  refine linked_cons_cons.mpr ⟨⟨?_, ?_⟩, linked_cons_cons.mpr ⟨⟨?_, ?_⟩, ?_⟩⟩
  · exact List.getElem?_set_self (by rw [List.length_set]; exact hah.lt_next)
  · rw [List.getElem?_set_ne hih.symm]
    exact List.getElem?_set_self hip
  · rw [List.getElem?_set_ne hia.symm]
    exact List.getElem?_set_self hin
  · exact List.getElem?_set_self (by rw [List.length_set]; exact hah.lt_prev)
  · exact (Linked.set hH hiH' hiH).set haH hhH

/-! ## Reading the arrays along a linked path -/

/-- Every element of a linked path but the last has its successor on the path. -/
theorem Linked.exists_next {l : List Nat} (h : Linked next prev l) {x : Nat}
    (hx : x ∈ l.dropLast) : ∃ y ∈ l.tail, Link next prev x y := by
  induction h with
  | nil => simp at hx
  | singleton => simp at hx
  | @cons_cons a b l hab _ ih =>
    rw [List.dropLast_cons_cons] at hx
    rcases List.mem_cons.mp hx with rfl | hx
    · exact ⟨b, .head _, hab⟩
    · obtain ⟨y, hy, hxy⟩ := ih hx
      exact ⟨y, List.mem_cons_of_mem _ hy, hxy⟩

/-- Every element of a linked path but the first has its predecessor on the path. -/
theorem Linked.exists_prev {l : List Nat} (h : Linked next prev l) {y : Nat}
    (hy : y ∈ l.tail) : ∃ x ∈ l.dropLast, Link next prev x y := by
  induction h with
  | nil => simp at hy
  | singleton => simp at hy
  | @cons_cons a b l hab _ ih =>
    rw [List.dropLast_cons_cons]
    rcases List.mem_cons.mp hy with rfl | hy
    · exact ⟨a, .head _, hab⟩
    · obtain ⟨x, hx, hxy⟩ := ih hy
      exact ⟨x, .tail _ hx, hxy⟩

theorem Link.follow_eq {x y : Nat} (h : Link next prev x y) : follow next x = y := by
  simp [follow, List.getD_eq_getElem?_getD, h.1]

/-- Following `next` `j` times from the start of a linked path reaches its `j`-th element. -/
theorem Linked.iterate_follow {x : Nat} {l : List Nat} (h : Linked next prev (x :: l)) :
    ∀ j (hj : j < l.length + 1), (follow next)^[j] x = (x :: l)[j] := by
  induction l generalizing x with
  | nil =>
    intro j hj
    obtain rfl : j = 0 := by simpa using hj
    rfl
  | cons y l ih =>
    obtain ⟨hxy, hl⟩ := linked_cons_cons.mp h
    rintro (_ | j) hj
    · rfl
    · rw [Function.iterate_succ_apply, hxy.follow_eq]
      exact ih hl j (by simpa using hj)

end IndexLinks
