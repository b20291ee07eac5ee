import Mathlib

/-!
# Total-correctness triples for state transformers that may fail

Code that reads and writes a state and may stop with an error is a value of
`StateT σ (Except ε) α`. A triple `Triple P x Q` says that from every state satisfying
`P` the computation `x` *returns* (no error) and its value and final state satisfy `Q`:
this is the form in which "no operation panics" and "the operation does what it should"
are stated together.

The rules follow the shape of the code: `pure`, `bind`, `ite`, state access, and a loop
rule for `List.foldlM`, the form of every `for` loop over a range or a list, whose
invariant is indexed by the prefix of the list already processed.

`Returns P x Q` is the partial-correctness form: every run of `x` from a `P` state that returns
satisfies `Q`, and a run that fails is not constrained. It states what a result must be
where whether the computation returns depends on more than the statement is about; a
`Triple` gives one (`Triple.returns`).
-/

universe u

variable {σ ε α β : Type u}

/-- From every `P` state, `x` returns a value and a state satisfying `Q`. -/
def Triple (P : σ → Prop) (x : StateT σ (Except ε) α) (Q : α → σ → Prop) : Prop :=
  ∀ s, P s → ∃ a s', x.run s = .ok (a, s') ∧ Q a s'

namespace Triple

theorem mono {P P' : σ → Prop} {x : StateT σ (Except ε) α} {Q Q' : α → σ → Prop}
    (h : Triple P x Q) (hP : ∀ s, P' s → P s) (hQ : ∀ a s, Q a s → Q' a s) :
    Triple P' x Q' := by
  intro s hs
  obtain ⟨a, s', hrun, hq⟩ := h s (hP s hs)
  exact ⟨a, s', hrun, hQ a s' hq⟩

theorem pure' {P : σ → Prop} {a : α} {Q : α → σ → Prop} (h : ∀ s, P s → Q a s) :
    Triple P (pure a : StateT σ (Except ε) α) Q :=
  fun s hs => ⟨a, s, rfl, h s hs⟩

theorem bind {P : σ → Prop} {x : StateT σ (Except ε) α} {f : α → StateT σ (Except ε) β}
    {R : α → σ → Prop} {Q : β → σ → Prop}
    (hx : Triple P x R) (hf : ∀ a, Triple (R a) (f a) Q) : Triple P (x >>= f) Q := by
  intro s hs
  obtain ⟨a, s', hrun, hr⟩ := hx s hs
  obtain ⟨b, s'', hrun', hq⟩ := hf a s' hr
  refine ⟨b, s'', ?_, hq⟩
  rw [StateT.run_bind, hrun]
  exact hrun'

theorem get' {P : σ → Prop} {Q : σ → σ → Prop} (h : ∀ s, P s → Q s s) :
    Triple P (get : StateT σ (Except ε) σ) Q :=
  fun s hs => ⟨s, s, rfl, h s hs⟩

theorem set' {P : σ → Prop} {t : σ} {Q : PUnit → σ → Prop} (h : ∀ s, P s → Q ⟨⟩ t) :
    Triple P (set t : StateT σ (Except ε) PUnit) Q :=
  fun s hs => ⟨⟨⟩, t, rfl, h s hs⟩

theorem modify' {P : σ → Prop} {f : σ → σ} {Q : PUnit → σ → Prop}
    (h : ∀ s, P s → Q ⟨⟩ (f s)) :
    Triple P (modify f : StateT σ (Except ε) PUnit) Q :=
  fun s hs => ⟨⟨⟩, f s, rfl, h s hs⟩

/-- The loop rule: an invariant over the processed prefix of the list and the
accumulator, kept by every iteration, holds of the whole list after the loop. -/
theorem foldlM {γ : Type u} {f : β → γ → StateT σ (Except ε) β}
    (I : List γ → β → σ → Prop) :
    ∀ (l pre : List γ) (b : β),
      (∀ done c rest acc, pre ++ l = done ++ c :: rest →
        Triple (I done acc) (f acc c) (fun acc' => I (done ++ [c]) acc')) →
      Triple (I pre b) (l.foldlM f b) (fun b' => I (pre ++ l) b')
  | [], pre, b, _ => by
    simp only [List.append_nil, List.foldlM_nil]
    exact pure' fun _ h => h
  | c :: l, pre, b, hstep => by
    rw [List.foldlM_cons]
    refine bind (hstep pre c l b rfl) fun acc => ?_
    have := foldlM I l (pre ++ [c]) acc (by simpa using hstep)
    simpa using this

/-- The loop rule for `List.forM`, a loop that keeps no accumulator. -/
theorem forM {γ : Type u} {f : γ → StateT σ (Except ε) PUnit} (I : List γ → σ → Prop) :
    ∀ (l pre : List γ),
      (∀ done c rest, pre ++ l = done ++ c :: rest →
        Triple (I done) (f c) (fun _ => I (done ++ [c]))) →
      Triple (I pre) (l.forM f) (fun _ => I (pre ++ l))
  | [], pre, _ => by
    simp only [List.append_nil, List.forM]
    exact pure' fun _ h => h
  | c :: l, pre, hstep => by
    simp only [List.forM]
    refine bind (hstep pre c l rfl) fun _ => ?_
    have := forM I l (pre ++ [c]) (by simpa using hstep)
    simpa using this

/-- Sequencing after a computation whose value is known: the rest runs on that value. -/
theorem bind_of_eq {P : σ → Prop} {x : StateT σ (Except ε) α} {f : α → StateT σ (Except ε) β}
    {g : α} {Q : β → σ → Prop} (hx : Triple P x fun a _ => a = g)
    (hf : Triple (fun _ => True) (f g) Q) : Triple P (x >>= f) Q :=
  bind hx fun a s ha => by
    subst ha
    exact hf s trivial

/-- A precondition that does not depend on the state is a hypothesis. -/
theorem of_pure {p : Prop} {x : StateT σ (Except ε) α} {Q : α → σ → Prop}
    (h : p → Triple (fun _ => True) x Q) : Triple (fun _ => p) x Q :=
  fun s hs => h hs s trivial

/-- A triple run from a `P` state gives the result it promises. -/
theorem run_eq {P : σ → Prop} {x : StateT σ (Except ε) α} {Q : α → σ → Prop}
    (h : Triple P x Q) {s : σ} (hs : P s) : ∃ a s', x.run s = .ok (a, s') ∧ Q a s' :=
  h s hs

end Triple

/-- Peeling a bind that returned: both halves returned. -/
theorem StateT.run_bind_eq_ok {x : StateT σ (Except ε) α} {f : α → StateT σ (Except ε) β}
    {s s'' : σ} {b : β} (h : (x >>= f).run s = .ok (b, s'')) :
    ∃ a s', x.run s = .ok (a, s') ∧ (f a).run s' = .ok (b, s'') := by
  rw [StateT.run_bind] at h
  cases hx : x.run s with
  | error e =>
    rw [hx] at h
    cases h
  | ok p =>
    rw [hx] at h
    exact ⟨p.1, p.2, rfl, h⟩

/-- Peeling a bind of `Except` that returned: both halves returned. -/
theorem Except.bind_eq_ok {x : Except ε α} {f : α → Except ε β} {b : β} (h : (x >>= f) = .ok b) :
    ∃ a, x = .ok a ∧ f a = .ok b := by
  cases x with
  | error e => cases h
  | ok a => exact ⟨a, rfl, h⟩

/-- Running a bind whose first half returned. -/
theorem StateT.run_bind_of_ok {x : StateT σ (Except ε) α} {f : α → StateT σ (Except ε) β}
    {s s' : σ} {a : α} (h : x.run s = .ok (a, s')) : (x >>= f).run s = (f a).run s' := by
  rw [StateT.run_bind, h]
  rfl

/-- A statement `if c then x` inside a `do` block, which the `do` notation compiles by copying
the rest of the block into both branches: the rest runs after either branch. -/
theorem StateT.ite_seq (c : Prop) [Decidable c] (x : StateT σ (Except ε) PUnit)
    (y : StateT σ (Except ε) β) :
    (if c then x >>= fun _ => y else y) = ((if c then x else pure PUnit.unit) >>= fun _ => y) := by
  split <;> simp

/-- A bind in `Except` after a value runs the continuation on it. -/
@[simp] theorem Except.ok_bind {α β : Type u} (a : α) (f : α → Except ε β) :
    (Except.ok a >>= f) = f a := rfl

/-- An error in `Except` skips the continuation. -/
@[simp] theorem Except.error_bind {α β : Type u} (e : ε) (f : α → Except ε β) :
    (Except.error e >>= f) = Except.error e := rfl

/-- A run that a decision procedure has found to return, as the value it returns. -/
theorem Except.exists_eq_ok_of_isOk {x : Except ε α} (h : x.isOk = true) : ∃ a, x = .ok a := by
  cases x with
  | error e => cases h
  | ok a => exact ⟨a, rfl⟩

/-! ## Partial correctness -/

/-- Every run of `x` from a `P` state that returns gives a value and a state satisfying `Q`. -/
def Returns (P : σ → Prop) (x : StateT σ (Except ε) α) (Q : α → σ → Prop) : Prop :=
  ∀ s a s', P s → x.run s = .ok (a, s') → Q a s'

/-- A computation that returns satisfies its total-correctness postcondition. -/
theorem Triple.returns {P : σ → Prop} {x : StateT σ (Except ε) α} {Q : α → σ → Prop}
    (h : Triple P x Q) : Returns P x Q := by
  intro s a s' hs hx
  obtain ⟨b, t, hrun, hQ⟩ := h s hs
  rw [hrun] at hx
  cases hx
  exact hQ

namespace Returns

variable {P : σ → Prop} {x : StateT σ (Except ε) α} {Q : α → σ → Prop}

/-- Nothing is promised. -/
theorem any : Returns P x fun _ _ => True := fun _ _ _ _ _ => True.intro

theorem mono {P' : σ → Prop} {Q' : α → σ → Prop} (h : Returns P x Q) (hP : ∀ s, P' s → P s)
    (hQ : ∀ a s, Q a s → Q' a s) : Returns P' x Q' :=
  fun s a s' hs hx => hQ a s' (h s a s' (hP s hs) hx)

/-- A fact that holds before the run is available to the proof. -/
theorem of_fact {p : Prop} (h : p → Returns P x Q) : Returns (fun s => p ∧ P s) x Q :=
  fun s a s' hs hx => h hs.1 s a s' hs.2 hx

theorem bind {f : α → StateT σ (Except ε) β} {R : α → σ → Prop} {Q : β → σ → Prop}
    (hx : Returns P x R) (hf : ∀ a, Returns (R a) (f a) Q) : Returns P (x >>= f) Q := by
  intro s b s'' hs h
  obtain ⟨a, s', h₁, h₂⟩ := StateT.run_bind_eq_ok h
  exact hf a s' b s'' (hx s a s' hs h₁) h₂

/-- A computation that fails returns nothing, so it promises anything. -/
theorem throw' {e : ε} : Returns P (throw e : StateT σ (Except ε) α) Q := by
  intro s a s' _ hx
  cases hx

theorem pure' {a : α} (h : ∀ s, P s → Q a s) :
    Returns P (pure a : StateT σ (Except ε) α) Q := by
  intro s b s' hs hx
  cases hx
  exact h s hs

theorem get' {Q : σ → σ → Prop} (h : ∀ s, P s → Q s s) :
    Returns P (get : StateT σ (Except ε) σ) Q := by
  intro s b s' hs hx
  cases hx
  exact h s hs

theorem set' {t : σ} {Q : PUnit → σ → Prop} (h : ∀ s, P s → Q ⟨⟩ t) :
    Returns P (set t : StateT σ (Except ε) PUnit) Q := by
  intro s b s' hs hx
  cases hx
  exact h s hs

theorem modify' {f : σ → σ} {Q : PUnit → σ → Prop} (h : ∀ s, P s → Q ⟨⟩ (f s)) :
    Returns P (modify f : StateT σ (Except ε) PUnit) Q := by
  intro s b s' hs hx
  cases hx
  exact h s hs

/-- A computation whose run from `s₀` is known. -/
theorem of_run {s₀ t : σ} {a : α} (h : x.run s₀ = .ok (a, t)) :
    Returns (fun s => s = s₀) x fun b s => b = a ∧ s = t := by
  rintro s b s' rfl hx
  rw [h] at hx
  cases hx
  exact ⟨rfl, rfl⟩

/-- The loop rule of `Triple.foldlM` for runs that return: an invariant over the processed prefix
and the accumulator that every iteration that returns keeps. -/
theorem foldlM {γ : Type u} {f : β → γ → StateT σ (Except ε) β} (I : List γ → β → σ → Prop) :
    ∀ (l pre : List γ) (b : β),
      (∀ done c rest acc, pre ++ l = done ++ c :: rest →
        Returns (I done acc) (f acc c) (fun acc' => I (done ++ [c]) acc')) →
      Returns (I pre b) (l.foldlM f b) (fun b' => I (pre ++ l) b')
  | [], pre, b, _ => by
    simp only [List.append_nil, List.foldlM_nil]
    exact pure' fun _ h => h
  | c :: l, pre, b, hstep => by
    rw [List.foldlM_cons]
    refine bind (hstep pre c l b rfl) fun acc => ?_
    have := foldlM I l (pre ++ [c]) acc (by simpa using hstep)
    simpa using this

/-- The loop rule for `List.forM` with an invariant that every iteration keeps. -/
theorem forM {γ : Type u} {f : γ → StateT σ (Except ε) PUnit} {I : σ → Prop}
    (h : ∀ c, Returns I (f c) fun _ => I) : ∀ l : List γ, Returns I (l.forM f) fun _ => I
  | [] => pure' fun _ hs => hs
  | c :: l => by
    simp only [List.forM]
    exact bind (h c) fun _ => forM h l

end Returns
