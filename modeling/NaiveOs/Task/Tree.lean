import Mathlib
import NaiveOs.Basic
import NaiveOs.Lib.Triple

/-!
# The process tree (`task/mod.rs`, `syscall/process.rs`)

Every `Process` the kernel makes is an `Arc<Process>` that lives as long as something holds it:
its thread, its parent's `Children` maps, or a child's `parent`. The model keeps them all in
one table, in the order they were made, and names an `Arc<Process>` by its index there. Of each
`PCB` it keeps the fields the tree calls read and write: `pid`, `state`, `parent`, `children`
and `exit_code`. A `BTreeMap<usize, Arc<Process>>` of `Children` is an `AList` from pids to
indices.

`sys_clone`, `sys_exit` and `sys_waitpid` each run with the caller's `PCB` locked, and the
model takes each as one step of the whole table. `PID_ALLOCATOR.pid_top` does not wrap: every
clone maps a kernel stack in `KERNEL_SPACE` that nothing unmaps, so memory runs out long before
`2 ^ 64` clones.

The steps are those of processes that have not exited (`user_loop` leaves its loop on the exit
flag), and init's exit powers the machine off. Every step keeps `Inv`: a process's pid is its
index, a child comes after its parent, and the `alive` and `zombie` maps of a process hold
exactly its children that have not exited and some of those that have, each under its own pid.

Which exited children are still in `zombie` depends on the run: a `waitpid` of the parent takes
one out. `History t R` follows a run from boot and records in `R` the pairs (parent, child) its
`waitpid`s took; along every history, an exited child is in its parent's `zombie` exactly while
it is not in `R` (`Reaps`), which gives the guarantees of `processTree_invariant`.
-/

namespace NaiveOs

/-- `ProcessState`. -/
inductive ProcessState where
  | ready
  | running
  | zombie
  | killed
  | empty
  deriving DecidableEq, Repr

/-- A `BTreeMap<usize, Arc<Process>>`: pids to processes, named by their index in the table. -/
abbrev PidMap := AList fun _ : Nat => Nat

/-- `Children`. -/
structure Children where
  alive : PidMap
  zombie : PidMap

namespace Children

/-- `Children::new`. -/
def new : Children := ⟨∅, ∅⟩

/-- `Children::turn_into_zombie`: `alive.get(&pid).unwrap()` moves to `zombie`. -/
def turnIntoZombie (ch : Children) (pid : Nat) : Except Panic Children :=
  match ch.alive.lookup pid with
  | none => .error .unwrapNone
  | some proc => .ok ⟨ch.alive.erase pid, ch.zombie.insert pid proc⟩

end Children

/-- The fields of a process's `PCB` that the tree calls use; `parent` is the index of the
parent's `Arc<Process>`. -/
structure Proc where
  pid : Nat
  state : ProcessState
  parent : Option Nat
  children : Children
  exitCode : Int

namespace Proc

/-- The child a `waitpid(pid)` by `p` takes out of its `zombie` map, by the branches of
`sys_waitpid`: none without children, with `pid == -1` the zombie with the least pid, and
otherwise `pid as usize` when it is a zombie. -/
def waitTarget (p : Proc) (pid : Int) : Option Nat :=
  if p.children.alive.keys.length + p.children.zombie.keys.length = 0 then none
  else if pid = -1 then p.children.zombie.keys.min?
  else if (pid % 2 ^ 64).toNat ∈ p.children.zombie then some (pid % 2 ^ 64).toNat else none

end Proc

/-- Every process made so far, and `PID_ALLOCATOR.pid_top`. -/
structure ProcTable where
  pidTop : Nat
  procs : List Proc

namespace ProcTable

/-- The process with index `i`. -/
def proc (i : Nat) : KernelM ProcTable Proc := do
  index (← get).procs i

/-- Replace the `PCB` of process `i`. -/
def setProc (i : Nat) (p : Proc) : KernelM ProcTable Unit :=
  modify fun t => { t with procs := t.procs.set i p }

/-- `PidAllocator::alloc_pid`. -/
def allocPid : KernelM ProcTable Nat := do
  let t ← get
  set { t with pidTop := t.pidTop + 1 }
  pure t.pidTop

/-- The table after `crate_task_from_elf`: `alloc_pid()` has given 0, and the `PCB::new()` the
process keeps has pid 0 and no parent. -/
def boot : ProcTable := ⟨1, [⟨0, .ready, none, Children.new, 0⟩]⟩

/-- The tree part of `Thread::sys_clone` by process `c`: the child gets the next pid, `parent`
set to the caller and state `READY`, and goes into the caller's `children.alive`. -/
def sysClone (c : Nat) : KernelM ProcTable Int := do
  let p ← proc c
  let newPid ← allocPid
  let i := (← get).procs.length
  modify fun t => { t with procs := t.procs ++ [⟨newPid, .ready, some c, Children.new, 0⟩] }
  setProc c { p with children := { p.children with alive := p.children.alive.insert newPid i } }
  return toIsize newPid

/-- `Thread::sys_exit` by process `c`, with the `i32` code the dispatcher passes: the state
becomes `ZOMBIE`, the code is kept, and the parent's `turn_into_zombie(pid)` moves the caller
to its `zombie` map; a process without a parent (init) calls `shutdown()`. -/
def sysExit (c : Nat) (exitCode : Int) : KernelM ProcTable Int := do
  let p := { (← proc c) with state := .zombie, exitCode := exitCode }
  setProc c p
  match p.parent with
  | some q =>
    let pp ← proc q
    let ch ← StateT.lift (pp.children.turnIntoZombie p.pid)
    setProc q { pp with children := ch }
  | none => throw .shutdown
  return 0

/-- `*status = (exit_code << 8) | 0` when `status != 0`: the value written, if any. -/
def statusWord (status : Nat) (z : Proc) : Option Int :=
  if status ≠ 0 then some (z.exitCode * 2 ^ 8) else none

/-- `Thread::sys_waitpid` by process `c`: the value it returns and what it writes to `*status`,
or `none` while it waits. With `pid == -1` it takes the zombie with the least pid, and without
`WNOHANG` it yields until there is one; with another `pid` it looks that pid up in the zombies
only, returns 0 after reaping it and `-1` when it is not there. -/
def sysWaitpid (c : Nat) (pid : Int) (status options : Nat) :
    KernelM ProcTable (Option (Int × Option Int)) := do
  let p ← proc c
  let ch := p.children
  if ch.alive.keys.length + ch.zombie.keys.length = 0 then
    return some (if options > 0 then 0 else -1, none)
  if pid = -1 then
    match ch.zombie.keys.min? with
    | none => return if options > 0 then some (0, none) else none
    | some zpid =>
      let z ← proc (← unwrap (ch.zombie.lookup zpid))
      setProc c { p with children := { ch with zombie := ch.zombie.erase zpid } }
      return some (toIsize zpid, statusWord status z)
  else
    -- `pid as usize`
    let key := (pid % 2 ^ 64).toNat
    match ch.zombie.lookup key with
    | none => return some (-1, none)
    | some zi =>
      let z ← proc zi
      setProc c { p with children := { ch with zombie := ch.zombie.erase key } }
      return some (0, statusWord status z)

/-! ## Tables after a step -/

theorem getElem?_set_append {l : List Proc} {c i : Nat} {a b : Proc} (hc : c < l.length) :
    ((l ++ [b]).set c a)[i]? = if i = c then some a else if i = l.length then some b else l[i]? := by
  grind

theorem getElem?_set_set {l : List Proc} {c q i : Nat} {a b : Proc} (hc : c < l.length)
    (hq : q < l.length) :
    ((l.set c a).set q b)[i]? = if i = q then some b else if i = c then some a else l[i]? := by
  grind

/-! ## The calls, run -/

section Run

variable {t : ProcTable}

theorem proc_run {i : Nat} {p : Proc} (h : t.procs[i]? = some p) : (proc i).run t = .ok (p, t) := by
  obtain ⟨hi, rfl⟩ := List.getElem?_eq_some_iff.mp h
  simp [proc, index_run_of_lt hi]

theorem proc_run_some {i : Nat} {p : Proc} {t' : ProcTable} (h : (proc i).run t = .ok (p, t')) :
    t.procs[i]? = some p ∧ t' = t := by
  cases hi : t.procs[i]? with
  | none => simp [proc, index, hi] at h; cases h
  | some q =>
    rw [proc_run hi] at h
    simp only [Except.ok.injEq, Prod.mk.injEq] at h
    exact ⟨by rw [h.1], h.2.symm⟩

/-- The end of both reaping branches of `sys_waitpid`: `remove` and `return`. -/
theorem setProc_pure_run {α : Type} (c : Nat) (P : Proc) (x : α) (s : ProcTable) :
    (do setProc c P; pure x : KernelM ProcTable α).run s = .ok (x, ⟨s.pidTop, s.procs.set c P⟩) :=
  rfl

theorem sysClone_run {c : Nat} {p : Proc} (h : t.procs[c]? = some p) :
    (sysClone c).run t = .ok (toIsize t.pidTop,
      ProcTable.mk (t.pidTop + 1) ((t.procs ++ [(⟨t.pidTop, .ready, some c, Children.new, 0⟩ : Proc)]).set c
        { p with children := { p.children with
          alive := p.children.alive.insert t.pidTop t.procs.length } })) := by
  simp [sysClone, StateT.run_bind_of_ok (proc_run h), allocPid, setProc]
  rfl

theorem sysExit_run {c q j : Nat} {p pp : Proc} (code : Int) (hc : t.procs[c]? = some p)
    (hp : p.parent = some q) (hqc : q ≠ c) (hq : t.procs[q]? = some pp)
    (hj : pp.children.alive.lookup p.pid = some j) :
    (sysExit c code).run t = .ok (0, ProcTable.mk t.pidTop
      ((t.procs.set c { p with state := .zombie, exitCode := code }).set q
        { pp with children := ⟨pp.children.alive.erase p.pid, pp.children.zombie.insert p.pid j⟩ })) := by
  obtain ⟨pid, st, par, ch, ec⟩ := p
  obtain rfl : par = some q := hp
  have hq' : (t.procs.set c ⟨pid, .zombie, some q, ch, code⟩)[q]? = some pp := by
    rw [List.getElem?_set_ne (Ne.symm hqc), hq]
  simp only at hj
  simp [sysExit, StateT.run_bind_of_ok (proc_run hc), setProc,
    proc_run (t := ⟨t.pidTop, _⟩) hq', Children.turnIntoZombie, hj]

/-- Init's exit powers the machine off. -/
theorem sysExit_of_no_parent {c : Nat} {p : Proc} (code : Int)
    (hc : t.procs[c]? = some p) (hp : p.parent = none) :
    (sysExit c code).run t = .error .shutdown := by
  obtain ⟨pid, st, par, ch, ec⟩ := p
  obtain rfl : par = none := hp
  simp [sysExit, StateT.run_bind_of_ok (proc_run hc), setProc]
  rfl

/-- `turn_into_zombie` panics when the caller is not in its parent's `alive`. -/
theorem sysExit_of_not_alive {c q : Nat} {p pp : Proc} (code : Int)
    (hc : t.procs[c]? = some p) (hp : p.parent = some q) (hqc : q ≠ c)
    (hq : t.procs[q]? = some pp) (hj : pp.children.alive.lookup p.pid = none) :
    (sysExit c code).run t = .error .unwrapNone := by
  obtain ⟨pid, st, par, ch, ec⟩ := p
  obtain rfl : par = some q := hp
  have hq' : (t.procs.set c ⟨pid, .zombie, some q, ch, code⟩)[q]? = some pp := by
    rw [List.getElem?_set_ne (Ne.symm hqc), hq]
  simp only at hj
  simp [sysExit, StateT.run_bind_of_ok (proc_run hc), setProc,
    proc_run (t := ⟨t.pidTop, _⟩) hq', Children.turnIntoZombie, hj]

/-- What a `waitpid` that returns did: nothing when it takes no child, and otherwise it took
the zombie `waitTarget` names out of the caller's `zombie` map. -/
theorem sysWaitpid_some {c : Nat} {pid : Int} {status options : Nat} {r : Int × Option Int}
    {t' : ProcTable} (h : (sysWaitpid c pid status options).run t = .ok (some r, t')) :
    ∃ p, t.procs[c]? = some p ∧ ((p.waitTarget pid = none ∧ t' = t) ∨
      ∃ x, p.waitTarget pid = some x ∧ x ∈ p.children.zombie ∧ t' = ProcTable.mk t.pidTop
        (t.procs.set c { p with children := { p.children with
          zombie := p.children.zombie.erase x } })) := by
  obtain ⟨p, t₁, hp, hrest⟩ := StateT.run_bind_eq_ok h
  obtain ⟨hc, ht⟩ := proc_run_some hp
  subst t₁
  refine ⟨p, hc, ?_⟩
  dsimp only at hrest
  by_cases h0 : p.children.alive.keys.length + p.children.zombie.keys.length = 0
  · rw [if_pos h0] at hrest
    exact .inl ⟨by rw [Proc.waitTarget, if_pos h0], pure_run_state hrest⟩
  rw [if_neg h0] at hrest
  by_cases h1 : pid = -1
  · rw [if_pos h1] at hrest
    cases hmin : p.children.zombie.keys.min? with
    | none =>
      simp only [hmin] at hrest
      exact .inl ⟨by rw [Proc.waitTarget, if_neg h0, if_pos h1, hmin], pure_run_state hrest⟩
    | some zpid =>
      -- `waitpid(-1)` reaps the zombie with the least pid
      simp only [hmin] at hrest
      obtain ⟨zi, t₂, hu, hr₁⟩ := StateT.run_bind_eq_ok hrest
      obtain rfl := unwrap_run_state hu
      obtain ⟨z, t₃, hz, hr₂⟩ := StateT.run_bind_eq_ok hr₁
      obtain ⟨-, rfl⟩ := proc_run_some hz
      rw [setProc_pure_run] at hr₂
      exact .inr ⟨zpid, by rw [Proc.waitTarget, if_neg h0, if_pos h1, hmin],
        AList.mem_keys.mp (List.min?_mem hmin), (Prod.mk.inj (Except.ok.inj hr₂)).2.symm⟩
  · rw [if_neg h1] at hrest
    cases hk : p.children.zombie.lookup (pid % 2 ^ 64).toNat with
    | none =>
      simp only [hk] at hrest
      have hnot : (pid % 2 ^ 64).toNat ∉ p.children.zombie := AList.lookup_eq_none.mp hk
      exact .inl ⟨by rw [Proc.waitTarget, if_neg h0, if_neg h1, if_neg hnot],
        pure_run_state hrest⟩
    | some zi =>
      simp only [hk] at hrest
      have hin : (pid % 2 ^ 64).toNat ∈ p.children.zombie :=
        AList.lookup_isSome.mp (by rw [hk]; rfl)
      obtain ⟨z, t₃, hz, hr₂⟩ := StateT.run_bind_eq_ok hrest
      obtain ⟨-, rfl⟩ := proc_run_some hz
      rw [setProc_pure_run] at hr₂
      exact .inr ⟨_, by rw [Proc.waitTarget, if_neg h0, if_neg h1, if_pos hin], hin,
        (Prod.mk.inj (Except.ok.inj hr₂)).2.symm⟩

end Run

/-! ## Steps -/

/-- Process `c` exists and has not exited, so it can make system calls. -/
def Live (t : ProcTable) (c : Nat) : Prop := ∃ p, t.procs[c]? = some p ∧ p.state ≠ .zombie

/-- One system call of a process that has not exited, in any interleaving: a call that panics or
powers the machine off has no next state, and a `waitpid` that is waiting has not returned. -/
inductive Step : ProcTable → ProcTable → Prop
  | clone {t t' : ProcTable} {c : Nat} {r : Int} :
      t.Live c → (sysClone c).run t = .ok (r, t') → Step t t'
  | exit {t t' : ProcTable} {c : Nat} {code r : Int} :
      t.Live c → (sysExit c code).run t = .ok (r, t') → Step t t'
  | wait {t t' : ProcTable} {c : Nat} {pid : Int} {status options : Nat} {r : Int × Option Int} :
      t.Live c → (sysWaitpid c pid status options).run t = .ok (some r, t') → Step t t'

/-- The process-tree invariant. Pids are indices, so each `Arc<Process>` has its own pid; a
parent comes before its children; every entry `pid ↦ j` of a map is a child with that pid, in
`alive` one that has not exited and in `zombie` one that has; and every child that has not
exited is in its parent's `alive`. -/
structure Inv (t : ProcTable) : Prop where
  pidTop : t.pidTop = t.procs.length
  pid : ∀ {i : Nat} {P : Proc}, t.procs[i]? = some P → P.pid = i
  parent_lt : ∀ {i q : Nat} {P : Proc}, t.procs[i]? = some P → P.parent = some q → q < i
  alive : ∀ {q x j : Nat} {Q : Proc}, t.procs[q]? = some Q → Q.children.alive.lookup x = some j →
    j = x ∧ ∃ P, t.procs[x]? = some P ∧ P.parent = some q ∧ P.state ≠ .zombie
  zombie : ∀ {q x j : Nat} {Q : Proc}, t.procs[q]? = some Q → Q.children.zombie.lookup x = some j →
    j = x ∧ ∃ P, t.procs[x]? = some P ∧ P.parent = some q ∧ P.state = .zombie
  child : ∀ {i q : Nat} {P : Proc}, t.procs[i]? = some P → P.parent = some q → P.state ≠ .zombie →
    ∃ Q, t.procs[q]? = some Q ∧ i ∈ Q.children.alive

theorem inv_boot : boot.Inv where
  pidTop := rfl
  pid := by
    intro i P h
    match i, h with
    | 0, h => cases h; rfl
  parent_lt := by
    intro i q P h hq
    match i, h with
    | 0, h => cases h; cases hq
  alive := by
    intro q x j Q h hx
    match q, h with
    | 0, h => cases h; simp [Children.new] at hx
  zombie := by
    intro q x j Q h hx
    match q, h with
    | 0, h => cases h; simp [Children.new] at hx
  child := by
    intro i q P h hq
    match i, h with
    | 0, h => cases h; cases hq

section Clone

variable {t : ProcTable} {c : Nat} {p P' N : Proc}

/-- What `sys_clone` leaves of an old process: its parent, state and zombies, and an `alive`
that only grew. -/
theorem clone_hold (hc : t.procs[c]? = some p)
    (hP' : P' = { p with children := { p.children with
      alive := p.children.alive.insert t.pidTop t.procs.length } })
    {x : Nat} {P : Proc} (hx : t.procs[x]? = some P) : ∃ P'',
      ((t.procs ++ [N]).set c P')[x]? = some P'' ∧ P''.parent = P.parent ∧
      P''.state = P.state ∧ P''.children.zombie = P.children.zombie ∧
      ∀ y, y ∈ P.children.alive → y ∈ P''.children.alive := by
  have hcl : c < t.procs.length := (List.getElem?_eq_some_iff.mp hc).1
  have hxl : x < t.procs.length := (List.getElem?_eq_some_iff.mp hx).1
  rw [getElem?_set_append hcl]
  by_cases hxc : x = c
  · subst hxc
    rw [hc] at hx
    cases hx
    refine ⟨P', by simp, by rw [hP'], by rw [hP'], by rw [hP'], ?_⟩
    intro y hy
    rw [hP']
    exact (AList.mem_insert _).mpr (.inr hy)
  · exact ⟨P, by simp [hxc, Nat.ne_of_lt hxl, hx], rfl, rfl, rfl, fun _ hy => hy⟩

/-- `sys_clone` keeps the invariant: the child is new at index `pid_top`, under its parent in
`alive`; the caller's other fields are as they were. -/
theorem Inv.clone (hI : t.Inv) (hc : t.procs[c]? = some p)
    (hP' : P' = { p with children := { p.children with
      alive := p.children.alive.insert t.pidTop t.procs.length } })
    (hN : N = ⟨t.pidTop, .ready, some c, Children.new, 0⟩) :
    (ProcTable.mk (t.pidTop + 1) ((t.procs ++ [N]).set c P')).Inv := by
  have hcl : c < t.procs.length := (List.getElem?_eq_some_iff.mp hc).1
  have hn := hI.pidTop
  have hget : ∀ i, ((t.procs ++ [N]).set c P')[i]? =
      if i = c then some P' else if i = t.procs.length then some N else t.procs[i]? :=
    fun i => getElem?_set_append hcl
  have hold := fun {x : Nat} {P : Proc} (hx : t.procs[x]? = some P) =>
    clone_hold (N := N) hc hP' hx
  refine ⟨?pidTop, ?pid, ?parent_lt, ?alive, ?zombie, ?child⟩
  case pidTop => simp [hI.pidTop]
  case pid =>
    intro i P h
    rw [hget] at h
    split_ifs at h with h1 h2
    · cases h
      rw [hP', h1]
      exact (hI.pid hc : p.pid = c)
    · cases h
      rw [hN, hI.pidTop, h2]
    · exact hI.pid h
  case parent_lt =>
    intro i q P h hq
    rw [hget] at h
    split_ifs at h with h1 h2
    · cases h
      rw [h1]
      exact hI.parent_lt hc (by rw [hP'] at hq; exact hq)
    · cases h
      rw [hN] at hq
      cases hq
      omega
    · exact hI.parent_lt h hq
  case alive =>
    intro q x j Q hQ hx
    rw [hget] at hQ
    split_ifs at hQ with h1 h2
    · -- the caller: its new child, or one it had
      cases hQ
      subst h1
      rw [hP'] at hx
      by_cases hxn : x = t.pidTop
      · subst hxn
        rw [AList.lookup_insert] at hx
        cases hx
        refine ⟨hI.pidTop.symm, N, ?_, by rw [hN], by rw [hN]; simp⟩
        rw [hget, if_neg (by omega), if_pos hI.pidTop]
      · rw [AList.lookup_insert_ne hxn] at hx
        obtain ⟨rfl, P, hP, hpar, hst⟩ := hI.alive hc hx
        obtain ⟨P'', h'', hpar'', hst'', -⟩ := hold hP
        exact ⟨rfl, P'', h'', hpar''.trans hpar, by rw [hst'']; exact hst⟩
    · cases hQ
      rw [hN] at hx
      simp [Children.new] at hx
    · obtain ⟨rfl, P, hP, hpar, hst⟩ := hI.alive hQ hx
      obtain ⟨P'', h'', hpar'', hst'', -⟩ := hold hP
      exact ⟨rfl, P'', h'', hpar''.trans hpar, by rw [hst'']; exact hst⟩
  case zombie =>
    intro q x j Q hQ hx
    rw [hget] at hQ
    split_ifs at hQ with h1 h2
    · cases hQ
      subst h1
      rw [hP'] at hx
      obtain ⟨rfl, P, hP, hpar, hst⟩ := hI.zombie hc hx
      obtain ⟨P'', h'', hpar'', hst'', -⟩ := hold hP
      exact ⟨rfl, P'', h'', hpar''.trans hpar, hst''.trans hst⟩
    · cases hQ
      rw [hN] at hx
      simp [Children.new] at hx
    · obtain ⟨rfl, P, hP, hpar, hst⟩ := hI.zombie hQ hx
      obtain ⟨P'', h'', hpar'', hst'', -⟩ := hold hP
      exact ⟨rfl, P'', h'', hpar''.trans hpar, hst''.trans hst⟩
  case child =>
    intro i q P h hq hst
    rw [hget] at h
    split_ifs at h with h1 h2
    · cases h
      subst h1
      rw [hP'] at hq hst
      obtain ⟨Q, hQ, hin⟩ := hI.child hc hq hst
      obtain ⟨Q'', h'', -, -, -, hsub⟩ := hold hQ
      exact ⟨Q'', h'', hsub _ hin⟩
    · -- the child is in the caller's `alive`
      cases h
      rw [hN] at hq
      cases hq
      refine ⟨P', by simp [hget], ?_⟩
      rw [hP', h2, ← hI.pidTop]
      exact (AList.mem_insert _).mpr (.inl rfl)
    · obtain ⟨Q, hQ, hin⟩ := hI.child h hq hst
      obtain ⟨Q'', h'', -, -, -, hsub⟩ := hold hQ
      exact ⟨Q'', h'', hsub _ hin⟩

end Clone

section Exit

variable {t : ProcTable} {c q j : Nat} {code : Int} {p pp Pz Q' : Proc}

/-- What `sys_exit` by `c` leaves of a process: its parent; its state unless it is `c`; and
its zombies, with `c` added in the parent's. -/
theorem exit_hold (hc : t.procs[c]? = some p) (hq : t.procs[q]? = some pp) (hqc : q ≠ c)
    (hPz : Pz = { p with state := .zombie, exitCode := code })
    (hQ' : Q' = { pp with children :=
      ⟨pp.children.alive.erase p.pid, pp.children.zombie.insert p.pid j⟩ })
    {x : Nat} {P : Proc} (hx : t.procs[x]? = some P) : ∃ P'',
      ((t.procs.set c Pz).set q Q')[x]? = some P'' ∧ P''.parent = P.parent ∧
      (x ≠ c → P''.state = P.state) ∧
      (∀ y, y ∈ P.children.zombie → y ∈ P''.children.zombie) ∧
      (∀ y, y ∈ P''.children.zombie → y ≠ p.pid → y ∈ P.children.zombie) := by
  have hcl : c < t.procs.length := (List.getElem?_eq_some_iff.mp hc).1
  have hql : q < t.procs.length := (List.getElem?_eq_some_iff.mp hq).1
  rw [getElem?_set_set hcl hql]
  by_cases hxq : x = q
  · subst hxq
    rw [hq] at hx
    cases hx
    refine ⟨Q', by simp, by rw [hQ'], fun _ => by rw [hQ'], ?_, ?_⟩
    · intro y hy
      rw [hQ']
      exact (AList.mem_insert _).mpr (.inr hy)
    · intro y hy hyp
      rw [hQ'] at hy
      exact ((AList.mem_insert _).mp hy).resolve_left hyp
  · by_cases hxc : x = c
    · subst hxc
      rw [hc] at hx
      cases hx
      exact ⟨Pz, by simp [hxq], by rw [hPz], fun h => absurd rfl h,
        fun _ hy => by rw [hPz]; exact hy, fun _ hy _ => by rw [hPz] at hy; exact hy⟩
    · exact ⟨P, by simp [hxq, hxc, hx], rfl, fun _ => rfl, fun _ hy => hy, fun _ hy _ => hy⟩

/-- `sys_exit` by a process that has not exited keeps the invariant: it becomes a zombie, and its
parent's `turn_into_zombie` moves its entry from `alive` to `zombie`. -/
theorem Inv.exit (hI : t.Inv) (hc : t.procs[c]? = some p) (hlive : p.state ≠ .zombie)
    (hp : p.parent = some q) (hq : t.procs[q]? = some pp)
    (hj : pp.children.alive.lookup p.pid = some j) (code : Int)
    (hPz : Pz = { p with state := .zombie, exitCode := code })
    (hQ' : Q' = { pp with children :=
      ⟨pp.children.alive.erase p.pid, pp.children.zombie.insert p.pid j⟩ }) :
    (ProcTable.mk t.pidTop ((t.procs.set c Pz).set q Q')).Inv := by
  have hcl : c < t.procs.length := (List.getElem?_eq_some_iff.mp hc).1
  have hql : q < t.procs.length := (List.getElem?_eq_some_iff.mp hq).1
  have hpc : p.pid = c := hI.pid hc
  have hqc : q < c := hI.parent_lt hc hp
  have hjc : j = c := (hI.alive hq hj).1.trans hpc
  have hget : ∀ i, ((t.procs.set c Pz).set q Q')[i]? =
      if i = q then some Q' else if i = c then some Pz else t.procs[i]? :=
    fun i => getElem?_set_set hcl hql
  -- every process but the caller keeps its parent and state
  have hold : ∀ {x : Nat} {P : Proc}, t.procs[x]? = some P → x ≠ c → ∃ P'',
      ((t.procs.set c Pz).set q Q')[x]? = some P'' ∧ P''.parent = P.parent ∧
      P''.state = P.state := by
    intro x P hx hxc
    obtain ⟨P'', h'', hpar'', hst'', -, -⟩ := exit_hold hc hq (Nat.ne_of_lt hqc) hPz hQ' hx
    exact ⟨P'', h'', hpar'', hst'' hxc⟩
  -- an entry of a zombie map is not the caller, which has not exited
  have hzc : ∀ {x : Nat} {P : Proc}, t.procs[x]? = some P → P.state = .zombie → x ≠ c := by
    rintro x P hx hst rfl
    rw [hc] at hx
    cases hx
    exact hlive hst
  refine ⟨?pidTop, ?pid, ?parent_lt, ?alive, ?zombie, ?child⟩
  case pidTop => simp [hI.pidTop]
  case pid =>
    intro i P h
    rw [hget] at h
    split_ifs at h with h1 h2
    · cases h
      rw [hQ', h1]
      exact (hI.pid hq : pp.pid = q)
    · cases h
      rw [hPz, h2]
      exact hpc
    · exact hI.pid h
  case parent_lt =>
    intro i r P h hr
    rw [hget] at h
    split_ifs at h with h1 h2
    · cases h
      rw [h1]
      exact hI.parent_lt hq (by rw [hQ'] at hr; exact hr)
    · cases h
      rw [h2]
      exact hI.parent_lt hc (by rw [hPz] at hr; exact hr)
    · exact hI.parent_lt h hr
  case alive =>
    intro r x j' R hR hx
    rw [hget] at hR
    split_ifs at hR with h1 h2
    · -- the parent: every child but the caller stays
      cases hR
      subst h1
      rw [hQ'] at hx
      have hxp : x ≠ p.pid := by
        intro hxp
        rw [hxp, AList.lookup_erase] at hx
        cases hx
      rw [AList.lookup_erase_ne hxp] at hx
      obtain ⟨rfl, P, hP, hpar, hst⟩ := hI.alive hq hx
      obtain ⟨P'', h'', hpar'', hst''⟩ := hold hP (hpc ▸ hxp)
      exact ⟨rfl, P'', h'', hpar''.trans hpar, by rw [hst'']; exact hst⟩
    · -- the caller's own children, which come after it
      cases hR
      subst h2
      rw [hPz] at hx
      obtain ⟨rfl, P, hP, hpar, hst⟩ := hI.alive hc hx
      obtain ⟨P'', h'', hpar'', hst''⟩ := hold hP (Nat.ne_of_gt (hI.parent_lt hP hpar))
      exact ⟨rfl, P'', h'', hpar''.trans hpar, by rw [hst'']; exact hst⟩
    · obtain ⟨hjx, P, hP, hpar, hst⟩ := hI.alive hR hx
      -- the caller's entry is in its own parent's map only
      have hxc : x ≠ c := by
        rintro rfl
        rw [hc] at hP
        cases hP
        exact h1 (Option.some.inj (hpar.symm.trans hp))
      obtain ⟨P'', h'', hpar'', hst''⟩ := hold hP hxc
      exact ⟨hjx, P'', h'', hpar''.trans hpar, by rw [hst'']; exact hst⟩
  case zombie =>
    intro r x j' R hR hx
    rw [hget] at hR
    split_ifs at hR with h1 h2
    · -- the parent: the caller is its newest zombie
      cases hR
      subst h1
      rw [hQ'] at hx
      by_cases hxp : x = p.pid
      · subst hxp
        rw [AList.lookup_insert] at hx
        cases hx
        refine ⟨hjc.trans hpc.symm, Pz, ?_, by rw [hPz]; exact hp, by rw [hPz]⟩
        rw [hget, hpc, if_neg (Nat.ne_of_gt hqc), if_pos rfl]
      · rw [AList.lookup_insert_ne hxp] at hx
        obtain ⟨rfl, P, hP, hpar, hst⟩ := hI.zombie hq hx
        obtain ⟨P'', h'', hpar'', hst''⟩ := hold hP (hzc hP hst)
        exact ⟨rfl, P'', h'', hpar''.trans hpar, hst''.trans hst⟩
    · cases hR
      subst h2
      rw [hPz] at hx
      obtain ⟨rfl, P, hP, hpar, hst⟩ := hI.zombie hc hx
      obtain ⟨P'', h'', hpar'', hst''⟩ := hold hP (hzc hP hst)
      exact ⟨rfl, P'', h'', hpar''.trans hpar, hst''.trans hst⟩
    · obtain ⟨rfl, P, hP, hpar, hst⟩ := hI.zombie hR hx
      obtain ⟨P'', h'', hpar'', hst''⟩ := hold hP (hzc hP hst)
      exact ⟨rfl, P'', h'', hpar''.trans hpar, hst''.trans hst⟩
  case child =>
    intro i r P h hr hst
    rw [hget] at h
    split_ifs at h with h1 h2
    · -- the parent itself, under its own parent, which is neither it nor the caller
      cases h
      subst h1
      rw [hQ'] at hr hst
      obtain ⟨R, hR, hin⟩ := hI.child hq hr hst
      have hrq : r < i := hI.parent_lt hq hr
      refine ⟨R, ?_, hin⟩
      rw [hget, if_neg (by omega), if_neg (by omega), hR]
    · cases h
      rw [hPz] at hst
      exact absurd rfl hst
    · obtain ⟨R, hR, hin⟩ := hI.child h hr hst
      rw [hget]
      by_cases hrq : r = q
      · subst hrq
        rw [hq] at hR
        cases hR
        refine ⟨Q', by simp, ?_⟩
        rw [hQ']
        exact AList.mem_erase.mpr ⟨hpc ▸ h2, hin⟩
      · by_cases hrc : r = c
        · subst hrc
          rw [hc] at hR
          cases hR
          exact ⟨Pz, by simp [hrq], by rw [hPz]; exact hin⟩
        · exact ⟨R, by simp [hrq, hrc, hR], hin⟩

end Exit

/-- What reaping `x` in `c`'s `zombie` leaves of a process: everything but fewer zombies. -/
theorem reap_hold {t : ProcTable} {c x : Nat} {p : Proc} (hc : t.procs[c]? = some p)
    {y : Nat} {P : Proc} (hy : t.procs[y]? = some P) : ∃ P'', (t.procs.set c
      { p with children := { p.children with zombie := p.children.zombie.erase x } })[y]? =
      some P'' ∧ P''.pid = P.pid ∧ P''.parent = P.parent ∧ P''.state = P.state ∧
      P''.children.alive = P.children.alive ∧
      ∀ z j, P''.children.zombie.lookup z = some j → P.children.zombie.lookup z = some j := by
  have hcl : c < t.procs.length := (List.getElem?_eq_some_iff.mp hc).1
  rw [List.getElem?_set]
  by_cases hyc : y = c
  · subst hyc
    rw [hc] at hy
    cases hy
    refine ⟨{ p with children := { p.children with zombie := p.children.zombie.erase x } },
      by simp [hcl], rfl, rfl, rfl, rfl, ?_⟩
    intro z j hz
    by_cases hzx : z = x
    · subst hzx
      simp at hz
    · simpa [AList.lookup_erase_ne hzx] using hz
  · exact ⟨P, by simp [Ne.symm hyc, hy], rfl, rfl, rfl, rfl, fun _ _ hz => hz⟩

/-- `sys_waitpid` keeps the invariant: reaping removes an entry from the caller's `zombie`, and
nothing else changes. -/
theorem Inv.reap {t : ProcTable} {c x : Nat} {p : Proc} (hI : t.Inv) (hc : t.procs[c]? = some p) :
    (ProcTable.mk t.pidTop (t.procs.set c
      { p with children := { p.children with zombie := p.children.zombie.erase x } })).Inv := by
  have hcl : c < t.procs.length := (List.getElem?_eq_some_iff.mp hc).1
  have hget : ∀ i, (t.procs.set c
      { p with children := { p.children with zombie := p.children.zombie.erase x } })[i]? =
      if i = c then some { p with children := { p.children with
        zombie := p.children.zombie.erase x } } else t.procs[i]? := by
    intro i
    rw [List.getElem?_set]
    by_cases hic : i = c
    · simp [hic, hcl]
    · simp [Ne.symm hic, hic]
  have hold := fun {y : Nat} {P : Proc} (hy : t.procs[y]? = some P) => reap_hold (x := x) hc hy
  -- and every process there is one of the old table
  have hnew : ∀ {y : Nat} {P'' : Proc}, (t.procs.set c
      { p with children := { p.children with zombie := p.children.zombie.erase x } })[y]? =
      some P'' → ∃ P, t.procs[y]? = some P := by
    intro y P'' hy
    rw [hget] at hy
    split_ifs at hy with hyc
    · exact ⟨p, hyc ▸ hc⟩
    · exact ⟨P'', hy⟩
  refine ⟨?pidTop, ?pid, ?parent_lt, ?alive, ?zombie, ?child⟩
  case pidTop => simp [hI.pidTop]
  case pid =>
    intro i P'' h
    obtain ⟨P, hP⟩ := hnew h
    obtain ⟨_, h'', hpid, -⟩ := hold hP
    rw [h''] at h
    cases h
    rw [hpid]
    exact hI.pid hP
  case parent_lt =>
    intro i q P'' h hq
    obtain ⟨P, hP⟩ := hnew h
    obtain ⟨_, h'', -, hpar, -⟩ := hold hP
    rw [h''] at h
    cases h
    exact hI.parent_lt hP (hpar ▸ hq)
  case alive =>
    intro q y j Q'' hQ hy
    obtain ⟨Q, hQo⟩ := hnew hQ
    obtain ⟨_, h'', -, -, -, halive, -⟩ := hold hQo
    rw [h''] at hQ
    cases hQ
    obtain ⟨hjy, P, hP, hpar, hst⟩ := hI.alive hQo (halive ▸ hy)
    obtain ⟨P'', hP'', -, hpar'', hst'', -⟩ := hold hP
    exact ⟨hjy, P'', hP'', hpar''.trans hpar, by rw [hst'']; exact hst⟩
  case zombie =>
    intro q y j Q'' hQ hy
    obtain ⟨Q, hQo⟩ := hnew hQ
    obtain ⟨_, h'', -, -, -, -, hzombie⟩ := hold hQo
    rw [h''] at hQ
    cases hQ
    obtain ⟨hjy, P, hP, hpar, hst⟩ := hI.zombie hQo (hzombie _ _ hy)
    obtain ⟨P'', hP'', -, hpar'', hst'', -⟩ := hold hP
    exact ⟨hjy, P'', hP'', hpar''.trans hpar, hst''.trans hst⟩
  case child =>
    intro i q P'' h hq hst
    obtain ⟨P, hP⟩ := hnew h
    obtain ⟨_, h'', -, hpar, hst', -⟩ := hold hP
    rw [h''] at h
    cases h
    obtain ⟨Q, hQ, hin⟩ := hI.child hP (hpar ▸ hq) (hst' ▸ hst)
    obtain ⟨Q'', hQ'', -, -, -, halive, -⟩ := hold hQ
    exact ⟨Q'', hQ'', halive ▸ hin⟩

/-- What a successful `sys_exit` did, in a table that keeps the invariant: the caller had a
parent, whose `alive` held it. -/
theorem sysExit_ok {t t' : ProcTable} {c : Nat} {code r : Int} (hI : t.Inv)
    (h : (sysExit c code).run t = .ok (r, t')) :
    ∃ p q pp j, t.procs[c]? = some p ∧ p.parent = some q ∧ t.procs[q]? = some pp ∧
      pp.children.alive.lookup p.pid = some j ∧
      t' = ProcTable.mk t.pidTop ((t.procs.set c { p with state := .zombie, exitCode := code }).set q
        { pp with children := ⟨pp.children.alive.erase p.pid, pp.children.zombie.insert p.pid j⟩ }) := by
  obtain ⟨p, t₁, hp₀, -⟩ := StateT.run_bind_eq_ok h
  obtain ⟨hc, ht⟩ := proc_run_some hp₀
  subst t₁
  cases hp : p.parent with
  | none =>
    rw [sysExit_of_no_parent code hc hp] at h
    cases h
  | some q =>
    have hqc : q < c := hI.parent_lt hc hp
    have hcl : c < t.procs.length := (List.getElem?_eq_some_iff.mp hc).1
    obtain ⟨pp, hq⟩ : ∃ pp, t.procs[q]? = some pp :=
      ⟨t.procs[q], List.getElem?_eq_getElem (by omega)⟩
    cases hj : pp.children.alive.lookup p.pid with
    | none =>
      rw [sysExit_of_not_alive code hc hp (Nat.ne_of_lt hqc) hq hj] at h
      cases h
    | some j =>
      rw [sysExit_run code hc hp (Nat.ne_of_lt hqc) hq hj] at h
      cases h
      refine ⟨p, q, pp, j, hc, hp, hq, hj, ?_⟩
      rw [hp]

/-- What a successful `sys_clone` did. -/
theorem sysClone_ok {t t' : ProcTable} {c : Nat} {r : Int} (h : (sysClone c).run t = .ok (r, t')) :
    ∃ p, t.procs[c]? = some p ∧ t' = ProcTable.mk (t.pidTop + 1)
      ((t.procs ++ [(⟨t.pidTop, .ready, some c, Children.new, 0⟩ : Proc)]).set c
        { p with children := { p.children with
          alive := p.children.alive.insert t.pidTop t.procs.length } }) := by
  obtain ⟨p, t₁, hp, -⟩ := StateT.run_bind_eq_ok h
  obtain ⟨hc, ht⟩ := proc_run_some hp
  subst t₁
  rw [sysClone_run hc] at h
  cases h
  exact ⟨p, hc, rfl⟩

/-- Every step keeps the invariant. -/
theorem Inv.step {t t' : ProcTable} (hI : t.Inv) (h : Step t t') : t'.Inv := by
  cases h with
  | clone _ hrun =>
    obtain ⟨p, hc, rfl⟩ := sysClone_ok hrun
    exact hI.clone hc rfl rfl
  | exit hlive hrun =>
    obtain ⟨p, q, pp, j, hc, hp, hq, hj, rfl⟩ := sysExit_ok hI hrun
    obtain ⟨p', hc', hst⟩ := hlive
    rw [hc] at hc'
    cases hc'
    exact hI.exit hc hst hp hq hj _ rfl rfl
  | wait _ hrun =>
    obtain ⟨p, hc, ⟨-, rfl⟩ | ⟨x, -, -, rfl⟩⟩ := sysWaitpid_some hrun
    · exact hI
    · exact hI.reap hc


/-! ## What the invariant gives -/

section Consequences

variable {t : ProcTable} (hI : t.Inv)
include hI

/-- A key of `alive` is a child that has not exited, at the index of its pid. -/
theorem Inv.of_mem_alive {q x : Nat} {Q : Proc} (hQ : t.procs[q]? = some Q)
    (hx : x ∈ Q.children.alive) :
    ∃ P, t.procs[x]? = some P ∧ P.parent = some q ∧ P.state ≠ .zombie := by
  obtain ⟨j, hj⟩ := Option.isSome_iff_exists.mp (AList.lookup_isSome.mpr hx)
  obtain ⟨-, P, hP, hpar, hst⟩ := hI.alive hQ hj
  exact ⟨P, hP, hpar, hst⟩

/-- A key of `zombie` is a child that has exited, at the index of its pid. -/
theorem Inv.of_mem_zombie {q x : Nat} {Q : Proc} (hQ : t.procs[q]? = some Q)
    (hx : x ∈ Q.children.zombie) :
    ∃ P, t.procs[x]? = some P ∧ P.parent = some q ∧ P.state = .zombie := by
  obtain ⟨j, hj⟩ := Option.isSome_iff_exists.mp (AList.lookup_isSome.mpr hx)
  obtain ⟨-, P, hP, hpar, hst⟩ := hI.zombie hQ hj
  exact ⟨P, hP, hpar, hst⟩

/-- No two processes have one pid. -/
theorem Inv.pid_inj {i k : Nat} {P P' : Proc} (hP : t.procs[i]? = some P)
    (hP' : t.procs[k]? = some P') (h : P.pid = P'.pid) : i = k :=
  (hI.pid hP).symm.trans (h.trans (hI.pid hP'))

/-- A child is in its parent's `alive` exactly while it has not exited. -/
theorem Inv.mem_alive_iff {i q : Nat} {P Q : Proc} (hP : t.procs[i]? = some P)
    (hq : P.parent = some q) (hQ : t.procs[q]? = some Q) :
    P.pid ∈ Q.children.alive ↔ P.state ≠ .zombie := by
  rw [hI.pid hP]
  constructor
  · intro hin
    obtain ⟨P', hP', -, hst⟩ := hI.of_mem_alive hQ hin
    rw [hP] at hP'
    cases hP'
    exact hst
  · intro hst
    obtain ⟨Q', hQ', hin⟩ := hI.child hP hq hst
    rw [hQ] at hQ'
    cases hQ'
    exact hin

/-- A process that has not exited is in no `zombie` map. -/
theorem Inv.not_mem_zombie_of_live {i q : Nat} {P Q : Proc} (hP : t.procs[i]? = some P)
    (hQ : t.procs[q]? = some Q) (hst : P.state ≠ .zombie) : P.pid ∉ Q.children.zombie := by
  rw [hI.pid hP]
  intro hin
  obtain ⟨P', hP', -, hst'⟩ := hI.of_mem_zombie hQ hin
  rw [hP] at hP'
  cases hP'
  exact hst hst'

/-- Every entry of a map of `q` is a child of `q` with that pid. -/
theorem Inv.entry {q x j : Nat} {Q : Proc} (hQ : t.procs[q]? = some Q)
    (h : Q.children.alive.lookup x = some j ∨ Q.children.zombie.lookup x = some j) :
    ∃ P, t.procs[j]? = some P ∧ P.pid = x ∧ P.parent = some q := by
  rcases h with h | h
  · obtain ⟨rfl, P, hP, hpar, -⟩ := hI.alive hQ h
    exact ⟨P, hP, hI.pid hP, hpar⟩
  · obtain ⟨rfl, P, hP, hpar, -⟩ := hI.zombie hQ h
    exact ⟨P, hP, hI.pid hP, hpar⟩

/-- `sys_exit` by a process that has not exited and has a parent returns 0:
`turn_into_zombie` finds it in `alive`. -/
theorem Inv.sysExit_returns {c q : Nat} {P : Proc} (code : Int) (hc : t.procs[c]? = some P)
    (hst : P.state ≠ .zombie) (hp : P.parent = some q) :
    ∃ t', (sysExit c code).run t = .ok (0, t') := by
  have hqc : q < c := hI.parent_lt hc hp
  obtain ⟨Q, hQ, hin⟩ := hI.child hc hp hst
  obtain ⟨j, hj⟩ := Option.isSome_iff_exists.mp
    (AList.lookup_isSome.mpr ((hI.pid hc).symm ▸ hin : P.pid ∈ Q.children.alive))
  exact ⟨_, sysExit_run code hc hp (Nat.ne_of_lt hqc) hQ hj⟩

end Consequences

/-! ## Reaped children

Whether a child has been reaped is a fact about the run, not about the table: it is reaped by
the `waitpid` of its parent that takes it. `History t R` is a table reachable from boot together
with the pairs `(q, x)` of every child `x` that a `waitpid` of its parent `q` has taken on the
way, each call taking the child `Proc.waitTarget` names. -/

/-- The tables reachable from boot, with the pairs (parent, child) the `waitpid`s of the run
have reaped. -/
inductive History : ProcTable → List (Nat × Nat) → Prop
  | boot : History boot []
  | clone {t t' : ProcTable} {R : List (Nat × Nat)} {c : Nat} {r : Int} :
      History t R → t.Live c → (sysClone c).run t = .ok (r, t') → History t' R
  | exit {t t' : ProcTable} {R : List (Nat × Nat)} {c : Nat} {code r : Int} :
      History t R → t.Live c → (sysExit c code).run t = .ok (r, t') → History t' R
  | wait {t t' : ProcTable} {R : List (Nat × Nat)} {c : Nat} {p : Proc} {pid : Int}
      {status options : Nat} {r : Int × Option Int} :
      History t R → t.procs[c]? = some p → p.state ≠ .zombie →
      (sysWaitpid c pid status options).run t = .ok (some r, t') →
      History t' (R ++ (p.waitTarget pid).toList.map fun x => (c, x))

/-- What the reaped pairs `R` say of a table: each is an exited child of its parent that is no
longer in the parent's `zombie`, and an exited child that is not reaped is in it. -/
structure Reaps (t : ProcTable) (R : List (Nat × Nat)) : Prop where
  exited : ∀ {q x : Nat}, (q, x) ∈ R →
    ∃ P, t.procs[x]? = some P ∧ P.parent = some q ∧ P.state = .zombie
  taken : ∀ {q x : Nat} {Q : Proc}, (q, x) ∈ R → t.procs[q]? = some Q → x ∉ Q.children.zombie
  kept : ∀ {i q : Nat} {P Q : Proc}, t.procs[i]? = some P → P.parent = some q →
    P.state = .zombie → (q, i) ∉ R → t.procs[q]? = some Q → i ∈ Q.children.zombie

theorem reaps_boot : boot.Reaps [] where
  exited := fun h => absurd h List.not_mem_nil
  taken := fun h => absurd h List.not_mem_nil
  kept := by
    intro i q P Q h hq
    match i, h with
    | 0, h => cases h; cases hq

section Reaps

variable {t : ProcTable} {R : List (Nat × Nat)}

/-- A process of the table after a clone is an old one, with its parent, state and zombies, or
the child, which has not exited. -/
theorem clone_get {c : Nat} {p P' : Proc} (hc : t.procs[c]? = some p)
    (hP' : P' = { p with children := { p.children with
      alive := p.children.alive.insert t.pidTop t.procs.length } })
    {i : Nat} {P'' : Proc}
    (hi : ((t.procs ++ [(⟨t.pidTop, .ready, some c, Children.new, 0⟩ : Proc)]).set c P')[i]? = some P'') :
    (∃ P, t.procs[i]? = some P ∧ P''.parent = P.parent ∧ P''.state = P.state ∧
      P''.children.zombie = P.children.zombie) ∨ P''.state = .ready := by
  have hcl : c < t.procs.length := (List.getElem?_eq_some_iff.mp hc).1
  by_cases hil : i < t.procs.length
  · obtain ⟨P, hP⟩ : ∃ P, t.procs[i]? = some P := ⟨t.procs[i], List.getElem?_eq_getElem hil⟩
    obtain ⟨P₁, h₁, hpar, hst, hz, -⟩ := clone_hold hc hP' hP
    rw [h₁] at hi
    cases hi
    exact .inl ⟨P, hP, hpar, hst, hz⟩
  · -- past the old table only the child is left
    rw [getElem?_set_append hcl, if_neg (by omega)] at hi
    split_ifs at hi
    · cases hi
      exact .inr rfl
    · rw [List.getElem?_eq_none (by omega)] at hi
      cases hi

/-- A clone reaps nothing and keeps every `zombie` map. -/
theorem Reaps.clone {c : Nat} {p P' : Proc} (hI : t.Inv) (hR : t.Reaps R)
    (hc : t.procs[c]? = some p)
    (hP' : P' = { p with children := { p.children with
      alive := p.children.alive.insert t.pidTop t.procs.length } }) :
    (ProcTable.mk (t.pidTop + 1)
      ((t.procs ++ [(⟨t.pidTop, .ready, some c, Children.new, 0⟩ : Proc)]).set c P')).Reaps R := by
  -- the old parent of an old process is its parent in the new table, with the same zombies
  have hparent : ∀ {i q : Nat} {P : Proc}, t.procs[i]? = some P → P.parent = some q →
      ∃ Q Q'', t.procs[q]? = some Q ∧
        ((t.procs ++ [(⟨t.pidTop, .ready, some c, Children.new, 0⟩ : Proc)]).set c P')[q]? = some Q'' ∧
        Q''.children.zombie = Q.children.zombie := by
    intro i q P hP hq
    have hil : i < t.procs.length := (List.getElem?_eq_some_iff.mp hP).1
    have hqi := hI.parent_lt hP hq
    obtain ⟨Q, hQ⟩ : ∃ Q, t.procs[q]? = some Q :=
      ⟨t.procs[q], List.getElem?_eq_getElem (by omega)⟩
    obtain ⟨Q'', hQ'', -, -, hz, -⟩ := clone_hold hc hP' hQ
    exact ⟨Q, Q'', hQ, hQ'', hz⟩
  refine ⟨fun hx => ?_, fun hx hQ => ?_, fun hP hq hst hnot hQ => ?_⟩
  · obtain ⟨P, hP, hpar, hst⟩ := hR.exited hx
    obtain ⟨P'', hP'', hpar'', hst'', -⟩ := clone_hold hc hP' hP
    exact ⟨P'', hP'', hpar''.trans hpar, hst''.trans hst⟩
  · obtain ⟨P, hP, hpar, -⟩ := hR.exited hx
    obtain ⟨Q, Q'', hQo, hQ'', hz⟩ := hparent hP hpar
    rw [hQ''] at hQ
    cases hQ
    rw [hz]
    exact hR.taken hx hQo
  · rcases clone_get hc hP' hP with ⟨P, hPo, hpar, hst', -⟩ | hready
    · obtain ⟨Q, Q'', hQo, hQ'', hz⟩ := hparent hPo (hpar ▸ hq)
      rw [hQ''] at hQ
      cases hQ
      rw [hz]
      exact hR.kept hPo (hpar ▸ hq) (hst' ▸ hst) hnot hQo
    · rw [hready] at hst
      cases hst

/-- An exit reaps nothing; the process that exits goes into its parent's `zombie`, and every
other entry stays. -/
theorem Reaps.exit {c q' j : Nat} {code : Int} {p pp : Proc} (hI : t.Inv) (hR : t.Reaps R)
    (hc : t.procs[c]? = some p) (hlive : p.state ≠ .zombie) (hp : p.parent = some q')
    (hq' : t.procs[q']? = some pp) :
    (ProcTable.mk t.pidTop ((t.procs.set c { p with state := .zombie, exitCode := code }).set q'
      { pp with children := ⟨pp.children.alive.erase p.pid,
        pp.children.zombie.insert p.pid j⟩ })).Reaps R := by
  have hqc : q' ≠ c := Nat.ne_of_lt (hI.parent_lt hc hp)
  have hpc : p.pid = c := hI.pid hc
  have hold := fun {x : Nat} {P : Proc} (hx : t.procs[x]? = some P) =>
    exit_hold hc hq' hqc (rfl : ({ p with state := .zombie, exitCode := code } : Proc) = _)
      (rfl : ({ pp with children := ⟨pp.children.alive.erase p.pid,
        pp.children.zombie.insert p.pid j⟩ } : Proc) = _) hx
  -- every process of the new table is at an index of the old one
  have hnew : ∀ {l : List Proc} {y : Nat} {P'' : Proc}, l.length = t.procs.length →
      l[y]? = some P'' → ∃ P, t.procs[y]? = some P := by
    intro l y P'' hl hy
    have hyl : y < t.procs.length := hl ▸ (List.getElem?_eq_some_iff.mp hy).1
    exact ⟨t.procs[y], List.getElem?_eq_getElem hyl⟩
  have hlen : ((t.procs.set c { p with state := .zombie, exitCode := code }).set q'
      { pp with children := ⟨pp.children.alive.erase p.pid,
        pp.children.zombie.insert p.pid j⟩ }).length = t.procs.length := by simp
  -- a reaped child exited before, so it is not the process that exits now
  have hne : ∀ {q x : Nat}, (q, x) ∈ R → x ≠ c := by
    rintro q x hx rfl
    obtain ⟨P, hP, -, hst⟩ := hR.exited hx
    rw [hc] at hP
    cases hP
    exact hlive hst
  refine ⟨fun hx => ?_, fun hx hQ => ?_, fun {i q P'' Q''} hP hq hst hnot hQ => ?_⟩
  · obtain ⟨P, hP, hpar, hst⟩ := hR.exited hx
    obtain ⟨P'', hP'', hpar'', hst'', -⟩ := hold hP
    exact ⟨P'', hP'', hpar''.trans hpar, (hst'' (hne hx)).trans hst⟩
  · obtain ⟨Q, hQo⟩ := hnew hlen hQ
    obtain ⟨Q₁, hQ₁, -, -, -, hsub⟩ := hold hQo
    rw [hQ₁] at hQ
    cases hQ
    intro hin
    exact hR.taken hx hQo (hsub _ hin (by rw [hpc]; exact hne hx))
  · obtain ⟨P, hPo⟩ := hnew hlen hP
    obtain ⟨P₁, hP₁, hpar, hst', -⟩ := hold hPo
    rw [hP₁] at hP
    cases hP
    obtain ⟨Q, hQo⟩ := hnew hlen hQ
    obtain ⟨Q₁, hQ₁, -, -, hsup, -⟩ := hold hQo
    rw [hQ₁] at hQ
    cases hQ
    by_cases hic : i = c
    · -- the process that exits: its parent is `q'`, whose new `zombie` holds it
      subst hic
      rw [hc] at hPo
      cases hPo
      obtain rfl : q = q' := Option.some.inj (hq.symm.trans (hpar.trans hp))
      rw [hq'] at hQo
      cases hQo
      rw [List.getElem?_set_self (by simpa using (List.getElem?_eq_some_iff.mp hq').1)] at hQ₁
      cases hQ₁
      exact (AList.mem_insert _).mpr (.inl hpc.symm)
    · exact hsup _ (hR.kept hPo (hpar ▸ hq) ((hst' hic) ▸ hst) hnot hQo)

/-- A `waitpid` by `c` that takes the zombie `x` reaps `(c, x)`, and only takes `x` out. -/
theorem Reaps.reap {c x : Nat} {p : Proc} (hI : t.Inv) (hR : t.Reaps R)
    (hc : t.procs[c]? = some p) (hx : x ∈ p.children.zombie) :
    (ProcTable.mk t.pidTop (t.procs.set c { p with children := { p.children with
      zombie := p.children.zombie.erase x } })).Reaps (R ++ [(c, x)]) := by
  have hcl : c < t.procs.length := (List.getElem?_eq_some_iff.mp hc).1
  have hget : ∀ i, (t.procs.set c { p with children := { p.children with
      zombie := p.children.zombie.erase x } })[i]? =
      if i = c then some { p with children := { p.children with
        zombie := p.children.zombie.erase x } } else t.procs[i]? := by
    intro i
    rw [List.getElem?_set]
    by_cases hic : i = c
    · simp [hic, hcl]
    · simp [Ne.symm hic, hic]
  have hold := fun {y : Nat} {P : Proc} (hy : t.procs[y]? = some P) => reap_hold (x := x) hc hy
  -- `x` is an exited child of `c`: it is in `c`'s `zombie`
  have hxc : ∃ P, t.procs[x]? = some P ∧ P.parent = some c ∧ P.state = .zombie :=
    hI.of_mem_zombie hc hx
  refine ⟨fun {q y} hy => ?_, fun {q y Q''} hy hQ => ?_, fun {i q P'' Q''} hP hq hst hnot hQ => ?_⟩
  · obtain ⟨P, hP, hpar, hst⟩ : ∃ P, t.procs[y]? = some P ∧ P.parent = some q ∧
        P.state = .zombie := by
      rcases List.mem_append.mp hy with hy | hy
      · exact hR.exited hy
      · obtain ⟨rfl, rfl⟩ := Prod.mk.inj (List.mem_singleton.mp hy)
        exact hxc
    obtain ⟨P'', hP'', -, hpar'', hst'', -⟩ := hold hP
    exact ⟨P'', hP'', hpar''.trans hpar, hst''.trans hst⟩
  · rw [hget] at hQ
    rcases List.mem_append.mp hy with hyR | hyx
    · -- an old pair: the zombies of the new table are among the old ones
      split_ifs at hQ with hqc
      · subst hqc
        cases hQ
        intro hin
        exact hR.taken hyR hc (AList.mem_erase.mp hin).2
      · exact hR.taken hyR hQ
    · obtain ⟨rfl, rfl⟩ := Prod.mk.inj (List.mem_singleton.mp hyx)
      rw [if_pos rfl] at hQ
      cases hQ
      exact fun hin => (AList.mem_erase.mp hin).1 rfl
  · rw [hget] at hP hQ
    have hnot' : (q, i) ∉ R := fun h => hnot (List.mem_append_left _ h)
    have hP₀ : t.procs[i]? = some P'' ∨ (i = c ∧ P'' = { p with children := { p.children with
        zombie := p.children.zombie.erase x } }) := by
      split_ifs at hP with hic
      · exact .inr ⟨hic, (Option.some.inj hP).symm⟩
      · exact .inl hP
    obtain ⟨P, hPo, hpar, hst'⟩ : ∃ P, t.procs[i]? = some P ∧ P.parent = P''.parent ∧
        P.state = P''.state := by
      rcases hP₀ with hP₀ | ⟨rfl, rfl⟩
      · exact ⟨P'', hP₀, rfl, rfl⟩
      · exact ⟨p, hc, rfl, rfl⟩
    split_ifs at hQ with hqc
    · -- the parent is the caller: every zombie but `x` is left
      subst hqc
      cases hQ
      have hix : i ≠ x := fun hix => hnot (List.mem_append_right _ (by rw [hix]; simp))
      exact (AList.mem_erase.mpr ⟨hix, hR.kept hPo (hpar ▸ hq) (hst' ▸ hst) hnot' hc⟩)
    · exact hR.kept hPo (hpar ▸ hq) (hst' ▸ hst) hnot' hQ

end Reaps

/-- Along every history the invariant holds, and `R` records exactly the reaped children. The
induction is on the history, one case per call. -/
theorem History.inv {t : ProcTable} {R : List (Nat × Nat)} (h : History t R) :
    t.Inv ∧ t.Reaps R := by
  induction h with
  | boot => exact ⟨inv_boot, reaps_boot⟩
  | clone _ hlive hrun ih =>
    obtain ⟨p, hc, rfl⟩ := sysClone_ok hrun
    exact ⟨ih.1.step (.clone hlive hrun), ih.2.clone ih.1 hc rfl⟩
  | exit _ hlive hrun ih =>
    obtain ⟨p, q, pp, j, hc, hp, hq, -, rfl⟩ := sysExit_ok ih.1 hrun
    obtain ⟨p', hc', hst⟩ := hlive
    rw [hc] at hc'
    cases hc'
    exact ⟨ih.1.step (.exit ⟨p, hc, hst⟩ hrun), ih.2.exit ih.1 hc hst hp hq⟩
  | wait _ hc hst hrun ih =>
    have hstep := Step.wait ⟨_, hc, hst⟩ hrun
    obtain ⟨p, hc', hw⟩ := sysWaitpid_some hrun
    rw [hc] at hc'
    cases hc'
    rcases hw with ⟨hnone, rfl⟩ | ⟨x, hsome, hx, rfl⟩
    · rw [hnone]
      exact ⟨ih.1, by simpa using ih.2⟩
    · rw [hsome]
      exact ⟨ih.1.step hstep, ih.2.reap ih.1 hc hx⟩

/-! ## The process tree along every history -/

/-- What holds of the tree after a run that reaped `R`: (a) distinct pids; (b) a child is a key
of exactly one of its parent's maps until a `waitpid` of the parent reaps it, and of neither
afterwards, and only exited children are reaped; (c) it is in `alive` exactly while it has not
exited; (d) every entry is the child with that pid; and `turn_into_zombie` never fails its
`unwrap`. -/
structure TreeGuarantees (t : ProcTable) (R : List (Nat × Nat)) : Prop where
  pid_inj : ∀ {i k : Nat} {P P' : Proc}, t.procs[i]? = some P → t.procs[k]? = some P' →
    P.pid = P'.pid → i = k
  unreaped : ∀ {i q : Nat} {P Q : Proc}, t.procs[i]? = some P → P.parent = some q →
    t.procs[q]? = some Q → (q, P.pid) ∉ R →
    (P.pid ∈ Q.children.alive ∨ P.pid ∈ Q.children.zombie) ∧
      ¬(P.pid ∈ Q.children.alive ∧ P.pid ∈ Q.children.zombie)
  reaped : ∀ {i q : Nat} {P Q : Proc}, t.procs[i]? = some P → P.parent = some q →
    t.procs[q]? = some Q → (q, P.pid) ∈ R →
    P.pid ∉ Q.children.alive ∧ P.pid ∉ Q.children.zombie
  reaped_exited : ∀ {q x : Nat}, (q, x) ∈ R →
    ∃ P, t.procs[x]? = some P ∧ P.parent = some q ∧ P.state = .zombie
  alive_iff : ∀ {i q : Nat} {P Q : Proc}, t.procs[i]? = some P → P.parent = some q →
    t.procs[q]? = some Q → (P.pid ∈ Q.children.alive ↔ P.state ≠ .zombie)
  entry : ∀ {q x j : Nat} {Q : Proc}, t.procs[q]? = some Q →
    (Q.children.alive.lookup x = some j ∨ Q.children.zombie.lookup x = some j) →
    ∃ P, t.procs[j]? = some P ∧ P.pid = x ∧ P.parent = some q
  exit_returns : ∀ {c q : Nat} {P : Proc} (code : Int), t.procs[c]? = some P →
    P.state ≠ .zombie → P.parent = some q → ∃ t', (sysExit c code).run t = .ok (0, t')

section Guarantees

variable {t : ProcTable} {R : List (Nat × Nat)} (hI : t.Inv) (hR : t.Reaps R)
include hI hR

/-- An exited child is in its parent's `zombie` exactly while it is not reaped. -/
theorem Reaps.mem_zombie_iff {i q : Nat} {P Q : Proc} (hP : t.procs[i]? = some P)
    (hq : P.parent = some q) (hQ : t.procs[q]? = some Q) :
    P.pid ∈ Q.children.zombie ↔ P.state = .zombie ∧ (q, P.pid) ∉ R := by
  rw [hI.pid hP]
  constructor
  · intro hin
    obtain ⟨P', hP', -, hst⟩ := hI.of_mem_zombie hQ hin
    rw [hP] at hP'
    cases hP'
    exact ⟨hst, fun hr => hR.taken hr hQ hin⟩
  · rintro ⟨hst, hnot⟩
    exact hR.kept hP hq hst hnot hQ

theorem Reaps.treeGuarantees : t.TreeGuarantees R := by
  refine ⟨hI.pid_inj, fun {i q P Q} hP hq hQ hnot => ?_, fun {i q P Q} hP hq hQ hr => ?_, hR.exited,
    hI.mem_alive_iff, hI.entry, fun code hc hst hp => hI.sysExit_returns code hc hst hp⟩
  · -- a child that has not exited is in `alive`; one that has, in `zombie`
    have ha := hI.mem_alive_iff hP hq hQ
    have hz := hR.mem_zombie_iff hI hP hq hQ
    by_cases hst : P.state = .zombie
    · exact ⟨.inr (hz.mpr ⟨hst, hnot⟩), fun h => ha.mp h.1 hst⟩
    · exact ⟨.inl (ha.mpr hst), fun h => hst (hz.mp h.2).1⟩
  · -- a reaped child has exited, and is no longer in `zombie`
    obtain ⟨P', hP', -, hst⟩ := hR.exited hr
    rw [hI.pid hP, hP] at hP'
    cases hP'
    exact ⟨fun h => (hI.mem_alive_iff hP hq hQ).mp h hst,
      fun h => ((hR.mem_zombie_iff hI hP hq hQ).mp h).2 hr⟩

end Guarantees

theorem processTree_invariant {t : ProcTable} {R : List (Nat × Nat)} (h : History t R) :
    t.TreeGuarantees R :=
  h.inv.2.treeGuarantees h.inv.1

/-- Init clones child 1, the child exits with code 3, and init's `waitpid(-1)` reaps it: the
history has reaped `(0, 1)`, and the child is in neither of init's maps. -/
theorem processTree_invariant_after_reap :
    History (ProcTable.mk 2 [⟨0, .ready, none, ⟨((∅ : PidMap).insert 1 1).erase 1,
        ((∅ : PidMap).insert 1 1).erase 1⟩, 0⟩, ⟨1, .zombie, some 0, Children.new, 3⟩]) [(0, 1)] ∧
    (ProcTable.mk 2 [⟨0, .ready, none, ⟨((∅ : PidMap).insert 1 1).erase 1,
        ((∅ : PidMap).insert 1 1).erase 1⟩, 0⟩, ⟨1, .zombie, some 0, Children.new, 3⟩]).TreeGuarantees
      [(0, 1)] := by
  have h₁ : History (ProcTable.mk 2 [⟨0, .ready, none, ⟨(∅ : PidMap).insert 1 1, ∅⟩, 0⟩,
      ⟨1, .ready, some 0, Children.new, 0⟩]) [] :=
    .clone (c := 0) (r := 1) .boot ⟨_, rfl, by decide⟩ rfl
  have h₂ : History (ProcTable.mk 2 [⟨0, .ready, none, ⟨((∅ : PidMap).insert 1 1).erase 1,
      (∅ : PidMap).insert 1 1⟩, 0⟩, ⟨1, .zombie, some 0, Children.new, 3⟩]) [] :=
    @History.exit _ _ _ 1 3 0 h₁ ⟨_, rfl, by decide⟩ rfl
  have h₃ : History (ProcTable.mk 2 [⟨0, .ready, none, ⟨((∅ : PidMap).insert 1 1).erase 1,
      ((∅ : PidMap).insert 1 1).erase 1⟩, 0⟩, ⟨1, .zombie, some 0, Children.new, 3⟩]) [(0, 1)] :=
    @History.wait _ _ _ 0 _ (-1) 0 0 (1, none) h₂ rfl (by decide) rfl
  exact ⟨h₃, processTree_invariant h₃⟩

/-! ## `waitpid` on a named child -/

section Named

variable {t : ProcTable} {c : Nat} {p : Proc} {pid : Nat}

/-- `waitpid(pid, status, options)` for a child that has not exited returns `-1` at once, with
`WNOHANG` or without: the named branch looks in `zombie` only. -/
theorem sysWaitpid_of_alive (status options : Nat) (hc : t.procs[c]? = some p)
    (hpid : pid < 2 ^ 63) (halive : pid ∈ p.children.alive)
    (hz : p.children.zombie.lookup pid = none) :
    (sysWaitpid c pid status options).run t = .ok (some (-1, none), t) := by
  have hlen : ¬ p.children.alive.keys.length + p.children.zombie.keys.length = 0 := by
    have := List.length_pos_of_mem (AList.mem_keys.mp halive)
    omega
  have hkey : ((pid : Int) % 2 ^ 64).toNat = pid := by omega
  rw [sysWaitpid, StateT.run_bind_of_ok (proc_run hc)]
  dsimp only
  rw [if_neg hlen, if_neg (by omega), hkey, hz]
  rfl

/-- A named zombie child is reaped, and the call returns 0. -/
theorem sysWaitpid_of_zombie (status options : Nat) {zi : Nat} {z : Proc}
    (hc : t.procs[c]? = some p) (hpid : pid < 2 ^ 63) (hz : p.children.zombie.lookup pid = some zi)
    (hzi : t.procs[zi]? = some z) :
    (sysWaitpid c pid status options).run t = .ok (some (0, statusWord status z),
      ProcTable.mk t.pidTop (t.procs.set c
        { p with children := { p.children with zombie := p.children.zombie.erase pid } })) := by
  have hlen : ¬ p.children.alive.keys.length + p.children.zombie.keys.length = 0 := by
    have := List.length_pos_of_mem (AList.mem_keys.mp (AList.lookup_isSome.mp (by rw [hz]; rfl)))
    omega
  have hkey : ((pid : Int) % 2 ^ 64).toNat = pid := by omega
  rw [sysWaitpid, StateT.run_bind_of_ok (proc_run hc)]
  dsimp only
  rw [if_neg hlen, if_neg (by omega), hkey, hz]
  simp only [StateT.run_bind_of_ok (proc_run hzi), setProc_pure_run]

end Named

/-- Init clones child 1. `waitpid(1, 0, 0)` returns `-1` while the child runs, and so does
`waitpid(1, 0, WNOHANG)`; after the child's `exit(3)`, `waitpid(1, status, 0)` reaps it, writes
`3 << 8` and returns 0, not 1. -/
theorem waitpid_named_child :
    ((do let _ ← sysClone 0; sysWaitpid 0 1 0 0 : KernelM ProcTable _).run' boot) =
      .ok (some (-1, none)) ∧
    ((do let _ ← sysClone 0; sysWaitpid 0 1 0 1 : KernelM ProcTable _).run' boot) =
      .ok (some (-1, none)) ∧
    ((do let _ ← sysClone 0; let _ ← sysExit 1 3; sysWaitpid 0 1 8 0 :
      KernelM ProcTable _).run' boot) = .ok (some (0, some 768)) := by
  -- after the clone, init's `alive` holds the child and its `zombie` is empty
  have hclone : (sysClone 0).run boot = .ok (1, ProcTable.mk 2
      [⟨0, .ready, none, ⟨(∅ : PidMap).insert 1 1, ∅⟩, 0⟩, ⟨1, .ready, some 0, Children.new, 0⟩]) :=
    rfl
  -- after the exit, the child has moved to init's `zombie`
  have hexit : (sysExit 1 3).run (ProcTable.mk 2 [⟨0, .ready, none,
      ⟨(∅ : PidMap).insert 1 1, ∅⟩, 0⟩, ⟨1, .ready, some 0, Children.new, 0⟩]) = .ok (0,
      ProcTable.mk 2 [⟨0, .ready, none, ⟨((∅ : PidMap).insert 1 1).erase 1, (∅ : PidMap).insert 1 1⟩, 0⟩,
        ⟨1, .zombie, some 0, Children.new, 3⟩]) :=
    (sysExit_run (t := ProcTable.mk 2 [⟨0, .ready, none, ⟨(∅ : PidMap).insert 1 1, ∅⟩, 0⟩,
      ⟨1, .ready, some 0, Children.new, 0⟩]) (c := 1) (q := 0) (j := 1) 3 rfl rfl (by decide) rfl rfl).trans
      rfl
  -- child 1 in init's maps: alive after the clone, a zombie after the exit
  have halive : 1 ∈ (∅ : PidMap).insert 1 1 := by decide
  have hnone : (∅ : PidMap).lookup 1 = none := rfl
  have hzombie : ((∅ : PidMap).insert 1 1).lookup 1 = some 1 := rfl
  -- the lemmas take the pid as a `Nat`; the literal `(1 : Int)` is its cast
  have hwait := fun options => by
    simpa only [Nat.cast_one] using sysWaitpid_of_alive (t := ProcTable.mk 2 [⟨0, .ready, none,
      ⟨(∅ : PidMap).insert 1 1, ∅⟩, 0⟩, ⟨1, .ready, some 0, Children.new, 0⟩])
      (c := 0) 0 options rfl (by decide) halive hnone
  have hreap := by
    simpa only [Nat.cast_one] using sysWaitpid_of_zombie (t := ProcTable.mk 2 [⟨0, .ready, none,
      ⟨((∅ : PidMap).insert 1 1).erase 1, (∅ : PidMap).insert 1 1⟩, 0⟩,
        ⟨1, .zombie, some 0, Children.new, 3⟩]) (c := 0) 8 0 rfl (by decide) hzombie rfl
  refine ⟨?_, ?_, ?_⟩
  · rw [StateT.run'_eq, StateT.run_bind_of_ok hclone, hwait 0]
    rfl
  · rw [StateT.run'_eq, StateT.run_bind_of_ok hclone, hwait 1]
    rfl
  · rw [StateT.run'_eq, StateT.run_bind_of_ok hclone, StateT.run_bind_of_ok hexit, hreap]
    rfl

end ProcTable

end NaiveOs
