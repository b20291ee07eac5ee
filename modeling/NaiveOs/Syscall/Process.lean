import Mathlib
import NaiveOs.Task.Basic
import NaiveOs.Trap.Context
import NaiveOs.Mm.AddressSpace
import NaiveOs.Mm.ElfLoad

/-!
# `fork`: `Thread::sys_clone` (`syscall/process.rs`)

`sys_clone` allocates a pid, decodes the flags, builds the child's `PCB` from `PCB::new()`:
the parent's descriptor table (the open files are shared), a copy of the parent's address space
made by `MemorySet::from_existed_user`, and a copy of the parent's trap frame in which the child
returns 0 (`x[10]`) on a kernel stack of its own, mapped in `KERNEL_SPACE`.

`CloneFlags::from_bits(flags as u32 & !0x3f).unwrap()` keeps bit 6 and bits 25 to 31, which no
flag of `CloneFlags` defines, so a request with any of them set panics before anything is
copied (`sysClone_panics_on_bit_six`). For the others `sysClone_spec` gives the child the
address space `fromExistedUser_spec` describes and the parent's trap frame edited as the code
says (`TrapFrame.forChild`).
-/

namespace NaiveOs

open PageTable

/-- `CloneFlags`: a `u32` set of flags. -/
structure CloneFlags where
  bits : UInt32
  deriving DecidableEq, Repr

namespace CloneFlags

/-- `CLONE_SETTLS`. -/
def cloneSettls : CloneFlags := ⟨(1 : UInt32) <<< 19⟩

/-- The flags `bitflags!` defines: `CLONE_NEWTIME` (bit 7) to `CLONE_CHILD_SETTID` (bit 24). -/
def all : UInt32 := 0x1ffff80

/-- `CloneFlags::from_bits`: `None` when a bit no flag defines is set. -/
def fromBits (bits : UInt32) : Option CloneFlags :=
  if bits &&& ~~~all = 0 then some ⟨bits⟩ else none

/-- `CloneFlags::contains`. -/
def contains (f g : CloneFlags) : Bool := f.bits &&& g.bits == g.bits

end CloneFlags

/-- `VirtAddr::from(TRAPFRAME)` as a page number: the page below the trampoline. -/
def trapframeVpn : VirtPageNum := ⟨2 ^ 27 - 2⟩

theorem trapframe_ofVirtAddr :
    VirtPageNum.ofVirtAddr (VirtAddr.ofUsize trapframe) = .ok trapframeVpn := by
  decide

/-- The child's trap frame as `sys_clone` describes it: the parent's, returning 0 on the kernel
stack `kernelSp`, with the user stack pointer `x[2]` replaced when `stack ≠ 0` and the thread
pointer `x[4]` when `CLONE_SETTLS` is set. -/
def TrapFrame.forChild (tf : TrapFrame) (kernelSp stack tls : Nat) (settls : Bool) :
    TrapFrame :=
  let tf := { tf with x := tf.x.set 10 0, kernelSp := kernelSp }
  let tf := if stack ≠ 0 then { tf with x := tf.x.set 2 stack } else tf
  if settls then { tf with x := tf.x.set 4 tls } else tf

namespace Thread

/-- The child's trap frame, up to the kernel stack: `trapframe_ppn` is the frame the new space
maps at `TRAPFRAME`, the parent's trap frame is copied there, and `x[10]` and `kernel_sp` are
set. -/
def initTrapFrame (ms : MemorySet) (parent : PhysPageNum) (kernelSp : Nat) :
    KernelM Machine PhysPageNum := do
  let vpn ← VirtPageNum.ofVirtAddr (VirtAddr.ofUsize trapframe)
  let ppn := (← unwrap (ms.translate (← get).mem vpn)).ppn
  TrapFrame.copy ppn parent
  TrapFrame.setX ppn 10 0
  TrapFrame.setKernelSp ppn kernelSp
  pure ppn

/-- `TRAMPOLINE - KERNEL_STACK_SIZE * pid`: the top of the kernel stack of a pid. -/
def kernelStackTop (pid : Nat) : Nat := wrapSub trampoline (wrap (kernelStackSize * pid))

/-- `Thread::sys_clone`. The flags are decoded after the pid is taken; `ptid` and `ctid` are
not read. The assignment of the copied space to `new_pcb.memory_set` drops the bare space of
`PCB::new()`. -/
def sysClone (strampoline : Nat) (flags stack _ptid tls _ctid : Nat) : KernelM Kernel Int := do
  let pcb := (← get).pcb
  let newPid ← Kernel.allocPid
  let flags ← unwrap (CloneFlags.fromBits (UInt32.ofNat flags &&& ~~~0x3f))
  let newPcb ← PCB.new
  let ms ← Kernel.onMachine (MemorySet.fromExistedUser strampoline pcb.memorySet)
  Kernel.onMachine newPcb.memorySet.drop
  let tfPpn ← Kernel.onMachine (initTrapFrame ms pcb.trapframePpn (kernelStackTop newPid))
  let ks ← Kernel.onMachine ((← get).kernelSpace.insertFramedArea
    (VirtAddr.ofUsize (kernelStackTop (wrap (newPid + 1))))
    (VirtAddr.ofUsize (kernelStackTop newPid)) (MapPermission.R ||| MapPermission.W))
  modify fun k => { k with kernelSpace := ks }
  if stack ≠ 0 then Kernel.onMachine (TrapFrame.setX tfPpn 2 stack)
  if flags.contains CloneFlags.cloneSettls then Kernel.onMachine (TrapFrame.setX tfPpn 4 tls)
  let child : PCB := { newPcb with
    pid := newPid, trapframePpn := tfPpn, memorySet := ms, heapPos := pcb.heapPos,
    mmapPos := pcb.mmapPos, fdManager := pcb.fdManager }
  -- `children.alive.insert(new_pid, ..)`
  Kernel.modifyPcb fun p =>
    { p with children := if newPid ∈ p.children then p.children else p.children ++ [newPid] }
  modify fun k => { k with procs := k.procs ++ [child] }
  return toIsize newPid

/-! ## The kernel stack of a pid -/

/-- Below `2 ^ 26` pids nothing wraps: the stack top is `TRAMPOLINE - KERNEL_STACK_SIZE * pid`. -/
theorem kernelStackTop_eq {pid : Nat} (h : pid < 2 ^ 26) :
    kernelStackTop pid = trampoline - kernelStackSize * pid := by
  have hlt : kernelStackSize * pid < 2 ^ 64 := by
    simp only [kernelStackSize]
    omega
  have hle : kernelStackSize * pid ≤ trampoline := by
    simp only [kernelStackSize, trampoline, pageSize]
    omega
  unfold kernelStackTop
  rw [wrap_of_lt hlt, wrapSub_of_le (by simp [trampoline, pageSize]) hle]

theorem kernelStackTop_lt (pid : Nat) : kernelStackTop pid < 2 ^ 64 :=
  Nat.mod_lt _ (by norm_num)

/-- The kernel stack of `pid` is the two pages below `2 ^ 27 - 1 - 2 * pid`: the area
`insert_framed_area` builds starts there. -/
theorem kernelStack_floor {pid : Nat} (h : pid < 2 ^ 25) :
    (VirtAddr.ofUsize (kernelStackTop (wrap (pid + 1)))).floor.val = 2 ^ 27 - 3 - 2 * pid := by
  rw [wrap_of_lt (show pid + 1 < 2 ^ 64 by omega), kernelStackTop_eq (show pid + 1 < 2 ^ 26 by omega),
    VirtAddr.floor_val,
    VirtAddr.ofUsize_val]
  simp only [trampoline, kernelStackSize, pageSize]
  omega

/-- ... and ends there. -/
theorem kernelStack_ceil {pid : Nat} (h : pid < 2 ^ 25) :
    (VirtAddr.ofUsize (kernelStackTop pid)).ceil.val = 2 ^ 27 - 1 - 2 * pid := by
  have hva : (VirtAddr.ofUsize (kernelStackTop pid)).val = 2 ^ 39 - 4096 - 8192 * pid := by
    rw [VirtAddr.ofUsize_val, kernelStackTop_eq (by omega)]
    simp only [trampoline, kernelStackSize, pageSize]
    omega
  rw [VirtAddr.ceil_val (by omega), hva]
  omega

/-! ## The child's address space and trap frame -/

/-- The address space `sys_clone` gives the child: the bare space of `PCB::new()`, the copy of
the parent's, and the drop of the bare one. The copy's frames were free before, only they and
the bare table's frame were written, and every page of the parent holds its bytes in the copy. -/
theorem cloneSpace_spec {strampoline : Nat} {S : MemorySet} {m : Machine}
    (hS : S.UserWF strampoline m) (hal : strampoline % 4096 = 0) (hlt : strampoline < 2 ^ 56)
    (hfree : 4 + 3 * S.pages.length ≤ m.frameAllocator.free) :
    ∃ pt₀ m₁ C m₂ m₃, MemorySet.newBare.run m = .ok (⟨pt₀, []⟩, m₁) ∧
      (MemorySet.fromExistedUser strampoline S).run m₁ = .ok (C, m₂) ∧
      (MemorySet.drop ⟨pt₀, []⟩).run m₂ = .ok ((), m₃) ∧
      C.areas.map MapArea.shape = S.areas.map MapArea.shape ∧ C.UserWF strampoline m₃ ∧
      Machine.Takes pt₀.frames C.frames m m₃ ∧
      (∀ q ∈ pt₀.frames, ¬ m.frameAllocator.Owns q.val) ∧
      (∀ vpn ∈ S.pages, ∃ p q fl, lookup m.mem S.pageTable.rootPpn vpn = some (p, fl) ∧
        lookup m₃.mem C.pageTable.rootPpn vpn = some (q, fl) ∧
        m₃.mem.bytes q.base pageSize = m.mem.bytes p.base pageSize) ∧
      m.frameAllocator.free ≤ m₃.frameAllocator.free + 4 + 3 * S.pages.length := by
  obtain ⟨pt₀, m₁, hrun₁, hv₁, -, hf₁, ht₁⟩ := MemorySet.newBare_spec hS.valid.alloc (by omega)
  have hfresh₀ : ∀ q ∈ pt₀.frames, ¬ m.frameAllocator.Owns q.val :=
    fun q hq => ht₁.fresh q hq
  -- the bare table's frame is none of the parent's
  obtain ⟨hS₁, hlS₁⟩ := hS.of_step ht₁.step (fun q hq hT =>
    hfresh₀ q (by simpa using hq) (hS.valid.owned q hT)) hv₁.alloc
  obtain ⟨C, m₂, hrun₂, hshape, hc, hf₂⟩ := MemorySet.fromExistedUser_spec hS₁ hal hlt (by omega)
  have hframes₀ : (⟨pt₀, []⟩ : MemorySet).frames = pt₀.frames := by simp [MemorySet.frames]
  obtain ⟨fa₃, hrun₃, hinv₃, hown₃, hf₃⟩ := MemorySet.drop_spec hc.wf.valid.alloc
    (fun q hq => hc.takes.step.owns _ (hv₁.owned q (hframes₀ ▸ hq))) (hframes₀ ▸ hv₁.nodup)
  -- the copy's frames were free when the bare table's frame was already taken
  have hsep : ∀ q ∈ C.frames, ∀ r ∈ pt₀.frames, q.val ≠ r.val := by
    intro q hq r hr heq
    have hqr : q = r := by cases q; cases r; simp_all
    exact hc.takes.fresh q (by simpa using hq) (hqr ▸ hv₁.owned r hr)
  have hCown : ∀ q ∈ C.frames, fa₃.Owns q.val := fun q hq =>
    (hown₃ q.val).mpr ⟨hc.wf.owned q hq, fun r hr => hsep q hq r (hframes₀ ▸ hr)⟩
  refine ⟨pt₀, m₁, C, m₂, ⟨m₂.mem, fa₃⟩, hrun₁, hrun₂, hrun₃, hshape,
    hc.wf.of_mem_eq rfl hinv₃ hCown, ⟨⟨fun x hx => ?_, fun a ha => ?_⟩, hc.takes.nodup,
      fun q hq hown => hc.takes.fresh q (by simpa using hq) (ht₁.step.owns _ hown), hCown⟩,
    hfresh₀, fun vpn hv => ?_, show _ ≤ fa₃.free + _ + _ by omega⟩
  · -- what was owned before stays owned: the frame given back was not
    refine (hown₃ x).mpr ⟨hc.takes.step.owns _ (ht₁.step.owns _ hx), fun r hr heq => ?_⟩
    exact hfresh₀ r (hframes₀ ▸ hr) (heq ▸ hx)
  · show m₂.mem a = m.mem a
    rw [hc.takes.step.mem a fun q hq => ha q (List.mem_append_right _ (by simpa using hq)),
      ht₁.step.mem a fun q hq => ha q (List.mem_append_left _ (by simpa using hq))]
  · obtain ⟨p, q, fl, h₁, h₂, h₃⟩ := hc.copied vpn hv
    have hvlt := hS.lt_of_mem_pages hv
    have hne : vpn ≠ trampolineVpn := by
      rintro rfl
      simp [trampolineVpn] at hvlt
    obtain ⟨hpown, hp44⟩ := hS.source_frame (by omega) hne ((hlS₁ vpn).symm.trans h₁)
    refine ⟨p, q, fl, (hlS₁ vpn).symm.trans h₁, h₂, ?_⟩
    rw [show (⟨m₂.mem, fa₃⟩ : Machine).mem = m₂.mem from rfl, h₃,
      ht₁.bytes_eq hpown List.not_mem_nil hp44]

/-- `initTrapFrame` on a space that maps the trap frame page to `q`: the parent's trap frame is
copied to `q` with `x[10] = 0` and the new `kernel_sp`, and only `q` is written. -/
theorem initTrapFrame_spec {ms : MemorySet} {m : Machine} {q : PhysPageNum} {fl : PTEFlags}
    (hq : lookup m.mem ms.pageTable.rootPpn trapframeVpn = some (q, fl)) (parent : PhysPageNum)
    (kernelSp : Nat) :
    ∃ m', (initTrapFrame ms parent kernelSp).run m = .ok (q, m') ∧
      m'.frameAllocator = m.frameAllocator ∧ Machine.Step [q] m m' ∧
      TrapFrame.read m'.mem q.base =
        { TrapFrame.read m.mem parent.base with
          x := (TrapFrame.read m.mem parent.base).x.set 10 0, kernelSp := kernelSp % 2 ^ 64 } := by
  obtain ⟨pte, hpte, rfl⟩ := translate_of_lookup hq
  have hq44 := lookup_ppn_lt hq
  -- the copy, then the two stores, each inside the frame
  let m₁ : Machine := { m with mem := m.mem.writeBytes pte.ppn.base (m.mem.bytes parent.base TrapFrame.size) }
  let m₂ : Machine := { m₁ with mem := m₁.mem.writeLE (pte.ppn.base + 8 * 10) 8 0 }
  let m₃ : Machine := { m₂ with mem := m₂.mem.writeLE (pte.ppn.base + TrapFrame.kernelSpOffset) 8 kernelSp }
  have hs₁ : Machine.Step [pte.ppn] m m₁ :=
    Machine.step_writeBytes m hq44 (by simp [TrapFrame.size, pageSize])
  have hs₂ : Machine.Step [pte.ppn] m₁ m₂ := Machine.step_writeLE_at m₁ hq44 (by omega) 0
  have hs₃ : Machine.Step [pte.ppn] m₂ m₃ :=
    Machine.step_writeLE_at m₂ hq44 (by simp [TrapFrame.kernelSpOffset]) kernelSp
  refine ⟨m₃, ?_, rfl, ((hs₁.trans hs₂).trans hs₃).mono fun w hw => by simpa using hw, ?_⟩
  · simp [initTrapFrame, trapframe_ofVirtAddr, MemorySet.translate, hpte, unwrap, TrapFrame.copy,
      TrapFrame.setX, TrapFrame.setKernelSp, TrapFrame.setField]
    rfl
  · show TrapFrame.read m₃.mem pte.ppn.base = _
    simp only [m₃, m₂, m₁, TrapFrame.read_writeLE_kernelSp, TrapFrame.read_writeLE_x _ _
      (show 10 < 32 by omega), TrapFrame.read_copy, Nat.zero_mod]

/-- After `insert_framed_area` of the kernel stack of `pid` in `K` on `m`, giving `K'` on `m'`:
the two stack pages are mapped to frames, readable and writable, and every other page as
before. -/
structure KernelStackMapped (pid : Nat) (m : Machine) (K : MemorySet) (m' : Machine)
    (K' : MemorySet) : Prop where
  stack : ∀ vpn : VirtPageNum, 2 ^ 27 - 3 - 2 * pid ≤ vpn.val → vpn.val < 2 ^ 27 - 1 - 2 * pid →
    ∃ f, lookup m'.mem K'.pageTable.rootPpn vpn =
      some (f, ⟨(MapPermission.R ||| MapPermission.W).bits⟩ ||| PTEFlags.V)
  other : ∀ vpn : VirtPageNum, vpn.val < 2 ^ 27 →
    ¬ (2 ^ 27 - 3 - 2 * pid ≤ vpn.val ∧ vpn.val < 2 ^ 27 - 1 - 2 * pid) →
    lookup m'.mem K'.pageTable.rootPpn vpn = lookup m.mem K.pageTable.rootPpn vpn

/-- Writes outside the table's frames keep what it maps. -/
theorem KernelStackMapped.of_step {pid : Nat} {m m' m'' : Machine} {K K' : MemorySet}
    {W : List PhysPageNum} (h : KernelStackMapped pid m K m' K') (hv : K'.pageTable.Valid m')
    (hs : Machine.Step W m' m'') (hW : ∀ r ∈ W, r ∉ K'.pageTable.frames)
    (hinv : m''.frameAllocator.Inv) : KernelStackMapped pid m K m'' K' := by
  have hl := (hv.of_step hs hW hinv).2
  exact ⟨fun vpn h₁ h₂ => hl vpn ▸ h.stack vpn h₁ h₂, fun vpn hlt hn => (hl vpn).trans
    (h.other vpn hlt hn)⟩

/-- The child's trap frame and kernel stack, on a machine that holds the copied space `C`:
`initTrapFrame` writes only the frame `q` that `C` maps at the trap frame page, and
`insert_framed_area` maps the two kernel stack pages of `pid` in `K` to fresh frames, writing
only those and `K`'s table. -/
theorem trapFrameAndStack_spec {strampoline pid : Nat} {C K : MemorySet} {m : Machine}
    {q : PhysPageNum} {fl : PTEFlags} (hC : C.UserWF strampoline m)
    (hq : lookup m.mem C.pageTable.rootPpn trapframeVpn = some (q, fl))
    (hK : K.pageTable.Valid m) (hKC : ∀ r ∈ K.pageTable.frames, r ∉ C.frames)
    (hpid : pid < 2 ^ 25)
    (hKun : ∀ vpn : VirtPageNum, 2 ^ 27 - 3 - 2 * pid ≤ vpn.val →
      vpn.val < 2 ^ 27 - 1 - 2 * pid → lookup m.mem K.pageTable.rootPpn vpn = none)
    (hfree : 6 ≤ m.frameAllocator.free) (parent : PhysPageNum) :
    ∃ m₁ K' m₂ F, (initTrapFrame C parent (kernelStackTop pid)).run m = .ok (q, m₁) ∧
      (K.insertFramedArea (VirtAddr.ofUsize (kernelStackTop (wrap (pid + 1))))
        (VirtAddr.ofUsize (kernelStackTop pid)) (MapPermission.R ||| MapPermission.W)).run m₁ =
        .ok (K', m₂) ∧
      Machine.Takes (q :: K.pageTable.frames) F m m₂ ∧ K'.pageTable.Valid m₂ ∧
      (∀ r ∈ K'.pageTable.frames, r ∈ K.pageTable.frames ∨ r ∈ F) ∧
      KernelStackMapped pid m K m₂ K' ∧
      TrapFrame.read m₂.mem q.base = { TrapFrame.read m.mem parent.base with
        x := (TrapFrame.read m.mem parent.base).x.set 10 0, kernelSp := kernelStackTop pid } := by
  have hq44 := lookup_ppn_lt hq
  -- the trap frame page lies in an area of `C`, so `q` is a data frame of `C`, not `K`'s
  obtain ⟨a, ha, hqa, -⟩ := hC.area_of_lookup (by decide) (by decide) hq
  have hqC : q ∈ C.frames := MemorySet.mem_frames_of_mem ha hqa
  have hqK : q ∉ K.pageTable.frames := fun h => hKC q h hqC
  obtain ⟨m₁, hrun₁, hfa₁, hs₁, hread₁⟩ := initTrapFrame_spec hq parent (kernelStackTop pid)
  obtain ⟨hK₁, hlK₁⟩ := hK.of_step hs₁ (fun r hr => List.mem_singleton.mp hr ▸ hqK)
    (hfa₁ ▸ hK.alloc)
  have hfloor := kernelStack_floor hpid
  have hceil := kernelStack_ceil hpid
  obtain ⟨D, Q, K', m₂, hrun₂, -, hi⟩ := MemorySet.insertFramedArea_spec hK₁
    (MapPermission.R ||| MapPermission.W)
    (show (VirtAddr.ofUsize (kernelStackTop (wrap (pid + 1)))).floor.val ≤
      (VirtAddr.ofUsize (kernelStackTop pid)).ceil.val by omega) (by omega)
    (fun vpn h₁ h₂ => by rw [hlK₁]; exact hKun vpn (by omega) (by omega))
    (by rw [hfa₁]; omega)
  -- `q` is owned when the stack's frames are taken, so it is none of them
  have hqown : m₁.frameAllocator.Owns q.val := hs₁.owns _ (hC.owned q hqC)
  have hmem : ∀ v, v ∈ VPNRange.toList ⟨_, _, (show
      (VirtAddr.ofUsize (kernelStackTop (wrap (pid + 1)))).floor.val ≤
        (VirtAddr.ofUsize (kernelStackTop pid)).ceil.val by omega)⟩ ↔
      2 ^ 27 - 3 - 2 * pid ≤ v.val ∧ v.val < 2 ^ 27 - 1 - 2 * pid := fun v => by
    rw [VPNRange.mem_toList]
    dsimp only
    rw [hfloor, hceil]
  refine ⟨m₁, K', m₂, D.map Prod.snd ++ Q, hrun₁, hrun₂, ?_, hi.valid, fun r hr => ?_,
    ⟨fun vpn h₁ h₂ => ?_, fun vpn hlt hn => ?_⟩, ?_⟩
  · have ht₁ : Machine.Takes (q :: K.pageTable.frames) [] m m₁ :=
      (Machine.Takes.of_step hs₁).mono fun r hr => by
        rw [List.mem_singleton.mp hr]
        exact List.mem_cons_self
    simpa using ht₁.trans hi.takes fun r hr => .inl (List.mem_cons_of_mem _ hr)
  · rw [hi.frames] at hr
    exact (List.mem_append.mp hr).imp id fun h => List.mem_append_right _ h
  · -- a stack page is one of the area's, so the area maps it
    have hk : vpn ∈ D.map Prod.fst := hi.keys ▸ (hmem vpn).mpr ⟨h₁, h₂⟩
    obtain ⟨f, hf⟩ := MapArea.mapping_of_mem_keys (a := { dataFrames := D, .. }) hk
    exact ⟨f, by rw [hi.root, hi.maps vpn (by omega), hf]; rfl⟩
  · have hk : vpn ∉ D.map Prod.fst := hi.keys ▸ fun h => hn ((hmem vpn).mp h)
    rw [hi.root, hi.maps vpn hlt, MapArea.mapping_eq_none hk, Option.none_or, hlK₁]
  · -- the stack's run keeps the bytes of `q`
    rw [← Nat.mod_eq_of_lt (kernelStackTop_lt pid), ← hread₁]
    refine TrapFrame.read_congr fun i hi' => ?_
    rw [PhysPageNum.base_eq hq44]
    exact hi.takes.frame_eq hqown hqK (by simp only [TrapFrame.size] at hi'; omega)

/-- `if c { (*new_trapframe).x[i] = v }` on the trap frame at the start of `ppn`. -/
theorem setXIf_spec (c : Prop) [Decidable c] {ppn : PhysPageNum} (hppn : ppn.val < 2 ^ 44)
    {i : Nat} (hi : i < 32) (v : Nat) (k : Kernel) :
    ∃ m', (if c then Kernel.onMachine (TrapFrame.setX ppn i v) else pure ()).run k =
        .ok ((), { k with machine := m' }) ∧
      m'.frameAllocator = k.machine.frameAllocator ∧ Machine.Step [ppn] k.machine m' ∧
      TrapFrame.read m'.mem ppn.base = if c then
        { TrapFrame.read k.machine.mem ppn.base with
          x := (TrapFrame.read k.machine.mem ppn.base).x.set i (v % 2 ^ 64) }
      else TrapFrame.read k.machine.mem ppn.base := by
  by_cases hc : c
  · refine ⟨{ k.machine with mem := k.machine.mem.writeLE (ppn.base + 8 * i) 8 v },
      by rw [if_pos hc]; rfl, rfl,
      Machine.step_writeLE_at _ hppn (show 8 * i + 8 ≤ 4096 by omega) v, ?_⟩
    rw [if_pos hc]
    exact TrapFrame.read_writeLE_x _ _ hi v
  · exact ⟨k.machine, by rw [if_neg hc]; rfl, rfl, Machine.Step.refl _ _, by rw [if_neg hc]⟩

/-! ## `sys_clone` -/

/-- What `sys_clone` leaves in `k'` for a parent running in `k`: the child `child` is the last
process, with the next pid, the parent's descriptors (the same open files) and positions; its
space has the parent's areas and is a user space of its own, in frames the parent did not
hold, and every page of it but the trap frame's holds the bytes and flags the parent's had;
its trap frame is the parent's edited as `TrapFrame.forChild` says; the parent's space is
untouched; and the kernel space maps the child's kernel stack. -/
structure Forked (strampoline : Nat) (k : Kernel) (stack tls : Nat) (settls : Bool)
    (child : PCB) (k' : Kernel) : Prop where
  procs : k'.procs = k.procs ++ [child]
  pidTop : k'.pidTop = k.pidTop + 1
  pid : child.pid = k.pidTop
  fdManager : child.fdManager = k.pcb.fdManager
  heapPos : child.heapPos = k.pcb.heapPos
  mmapPos : child.mmapPos = k.pcb.mmapPos
  parent : k'.pcb = { k.pcb with children :=
    if k.pidTop ∈ k.pcb.children then k.pcb.children else k.pcb.children ++ [k.pidTop] }
  shape : child.memorySet.areas.map MapArea.shape = k.pcb.memorySet.areas.map MapArea.shape
  wf : child.memorySet.UserWF strampoline k'.machine
  fresh : ∀ q ∈ child.memorySet.frames, ¬ k.machine.frameAllocator.Owns q.val
  disjoint : ∀ q ∈ child.memorySet.frames, q ∉ k.pcb.memorySet.frames
  copied : ∀ vpn ∈ k.pcb.memorySet.pages, vpn ≠ trapframeVpn → ∃ p q fl,
    lookup k.machine.mem k.pcb.memorySet.pageTable.rootPpn vpn = some (p, fl) ∧
    lookup k'.machine.mem child.memorySet.pageTable.rootPpn vpn = some (q, fl) ∧
    k'.machine.mem.bytes q.base pageSize = k.machine.mem.bytes p.base pageSize
  trapframe : ∃ fl,
    lookup k.machine.mem k.pcb.memorySet.pageTable.rootPpn trapframeVpn =
      some (k.pcb.trapframePpn, fl) ∧
    lookup k'.machine.mem child.memorySet.pageTable.rootPpn trapframeVpn =
      some (child.trapframePpn, fl)
  trapframeRead : TrapFrame.read k'.machine.mem child.trapframePpn.base =
    (TrapFrame.read k.machine.mem k.pcb.trapframePpn.base).forChild (kernelStackTop k.pidTop)
      stack tls settls
  parentWf : k.pcb.memorySet.UserWF strampoline k'.machine
  parentMaps : ∀ vpn, lookup k'.machine.mem k.pcb.memorySet.pageTable.rootPpn vpn =
    lookup k.machine.mem k.pcb.memorySet.pageTable.rootPpn vpn
  parentBytes : ∀ q ∈ k.pcb.memorySet.frames,
    k'.machine.mem.bytes q.base pageSize = k.machine.mem.bytes q.base pageSize
  kernelStack : KernelStackMapped k.pidTop k.machine k.kernelSpace k'.machine k'.kernelSpace

/-- `sys_clone` from a parent whose space is a user space that maps its trap frame, with flags
that `CloneFlags::from_bits` accepts, a pid whose kernel stack is not mapped yet, and enough
free frames: it returns the new pid and leaves the kernel as `Forked` says. -/
theorem sysClone_spec {strampoline flags stack ptid tls ctid : Nat} {k : Kernel} {fl : PTEFlags}
    (hS : k.pcb.memorySet.UserWF strampoline k.machine) (hal : strampoline % 4096 = 0)
    (hlt : strampoline < 2 ^ 56)
    (htf : lookup k.machine.mem k.pcb.memorySet.pageTable.rootPpn trapframeVpn =
      some (k.pcb.trapframePpn, fl))
    (hK : k.kernelSpace.pageTable.Valid k.machine)
    (hKS : ∀ r ∈ k.kernelSpace.pageTable.frames, r ∉ k.pcb.memorySet.frames)
    (hpid : k.pidTop < 2 ^ 25)
    (hKun : ∀ vpn : VirtPageNum, 2 ^ 27 - 3 - 2 * k.pidTop ≤ vpn.val →
      vpn.val < 2 ^ 27 - 1 - 2 * k.pidTop →
      lookup k.machine.mem k.kernelSpace.pageTable.rootPpn vpn = none)
    (hflags : UInt32.ofNat flags &&& ~~~0x3f &&& ~~~CloneFlags.all = 0)
    (hstack : stack < 2 ^ 64) (htls : tls < 2 ^ 64)
    (hfree : 10 + 3 * k.pcb.memorySet.pages.length ≤ k.machine.frameAllocator.free) :
    ∃ child k', (sysClone strampoline flags stack ptid tls ctid).run k =
        .ok (toIsize k.pidTop, k') ∧
      Forked strampoline k stack tls
        ((⟨UInt32.ofNat flags &&& ~~~0x3f⟩ : CloneFlags).contains CloneFlags.cloneSettls)
        child k' := by
  -- the child's space: `PCB::new()`, `from_existed_user`, and the drop of the bare space
  obtain ⟨pt₀, m₁, C, m₂, m₃, hrun₁, hrun₂, hrun₃, hshape, hC₃, ht₃, hfresh₀, hcopied, hf₃⟩ :=
    cloneSpace_spec hS hal hlt (by omega)
  obtain ⟨fm, ⟨_, ino, ofs, dc, sin, sout, _, _, _, _⟩, hnew, rfl, rfl, rfl, rfl, rfl⟩ :=
    PCB.new_run (k := { k with pidTop := k.pidTop + 1 }) hrun₁
  -- the parent's trap frame page is one of its pages, so the copy maps it too
  have htfS : trapframeVpn ∈ k.pcb.memorySet.pages :=
    hS.mem_pages (by decide) ((hS.maps _ (by decide)).symm.trans htf)
  obtain ⟨p, q, fl', hp, hq, -⟩ := hcopied _ htfS
  simp only [htf, Option.some.injEq, Prod.mk.injEq] at hp
  obtain ⟨rfl, rfl⟩ := hp
  have hq44 := lookup_ppn_lt hq
  obtain ⟨a, ha, hqa, -⟩ := hC₃.area_of_lookup (by decide) (by decide) hq
  have hqC : q ∈ C.frames := MemorySet.mem_frames_of_mem ha hqa
  -- the parent's and the kernel's frames were owned at the start, the copy's were not
  have hCS : ∀ r ∈ C.frames, r ∉ k.pcb.memorySet.frames := fun r hr hrS =>
    ht₃.fresh r hr (hS.owned r hrS)
  have hKC : ∀ r ∈ k.kernelSpace.pageTable.frames, r ∉ C.frames := fun r hr hrC =>
    ht₃.fresh r hrC (hK.owned r hr)
  have hK₃ := hK.of_step ht₃.step (fun r hr hrK => (List.mem_append.mp hr).elim
      (fun h => hfresh₀ r h (hK.owned r hrK)) fun h => ht₃.fresh r h (hK.owned r hrK))
    hC₃.valid.alloc
  -- the trap frame and the kernel stack
  obtain ⟨m₄, K', m₅, F, hrun₄, hrun₅, ht₅, hK'₅, hK'fr, hks₅, hread₅⟩ :=
    trapFrameAndStack_spec hC₃ hq hK₃.1 hKC hpid
      (fun vpn h₁ h₂ => (hK₃.2 vpn).trans (hKun vpn h₁ h₂)) (by omega) k.pcb.trapframePpn
  obtain ⟨m₆, hrun₆, hfa₆, hs₆, hread₆⟩ := setXIf_spec (stack ≠ 0) hq44 (show 2 < 32 by omega)
    stack ⟨m₅, ino, ofs, dc, sin, sout, k.pidTop + 1, K', k.procs, k.pcb⟩
  obtain ⟨m₇, hrun₇, hfa₇, hs₇, hread₇⟩ := setXIf_spec
    ((⟨UInt32.ofNat flags &&& ~~~0x3f⟩ : CloneFlags).contains CloneFlags.cloneSettls = true)
    hq44 (show 4 < 32 by omega) tls ⟨m₆, ino, ofs, dc, sin, sout, k.pidTop + 1, K', k.procs, k.pcb⟩
  have hinv₇ : m₇.frameAllocator.Inv := hfa₇ ▸ hfa₆ ▸ hK'₅.alloc
  -- from the copy on, only `q`, the kernel's table and the stack's frames are written
  have hstep₃ := (ht₅.step.trans hs₆).trans hs₇
  have hW : ∀ r ∈ (q :: k.kernelSpace.pageTable.frames) ++ F ++ [q] ++ [q],
      r = q ∨ r ∈ k.kernelSpace.pageTable.frames ∨ r ∈ F := by
    intro r hr
    simp only [List.mem_append, List.mem_cons, List.not_mem_nil, or_false] at hr
    tauto
  have hqF : q ∉ F := fun h => ht₅.fresh q h (hC₃.owned q hqC)
  obtain ⟨hC₇, hlC₇⟩ := hC₃.of_step hstep₃ (fun r hr hrT => by
    rcases hW r hr with rfl | hK | hF
    · exact hC₃.data_not_mem_table ha hqa hrT
    · exact hKC r hK (List.mem_append_left _ hrT)
    · exact ht₅.fresh r hF (hC₃.owned r (List.mem_append_left _ hrT))) hinv₇
  -- from the start, the parent's frames are written by none of the runs
  have hstep₀ := ht₃.step.trans hstep₃
  have hW₀ : ∀ r ∈ pt₀.frames ++ C.frames ++ ((q :: k.kernelSpace.pageTable.frames) ++ F ++ [q] ++
      [q]), r ∉ k.pcb.memorySet.frames := by
    intro r hr hrS
    rcases List.mem_append.mp hr with hr | hr
    · rcases List.mem_append.mp hr with h | h
      · exact hfresh₀ r h (hS.owned r hrS)
      · exact hCS r h hrS
    · rcases hW r hr with rfl | hK | hF
      · exact hCS r hqC hrS
      · exact hKS r hK hrS
      · exact ht₅.fresh r hF (ht₃.step.owns _ (hS.owned r hrS))
  obtain ⟨hS₇, hlS₇⟩ := hS.of_step hstep₀ (fun r hr hrT => hW₀ r hr (List.mem_append_left _ hrT))
    hinv₇
  -- the parent's trap frame is untouched by the copy
  have hparent : TrapFrame.read m₃.mem k.pcb.trapframePpn.base =
      TrapFrame.read k.machine.mem k.pcb.trapframePpn.base := by
    obtain ⟨hown, hlt44⟩ := hS.source_frame (by decide) (by decide) htf
    refine TrapFrame.read_congr fun i hi => ?_
    rw [PhysPageNum.base_eq hlt44]
    exact ht₃.frame_eq hown (fun h => hfresh₀ _ h hown) (by simp only [TrapFrame.size] at hi; omega)
  have hfb : CloneFlags.fromBits (UInt32.ofNat flags &&& ~~~0x3f) =
      some ⟨UInt32.ofNat flags &&& ~~~0x3f⟩ := by
    simp [CloneFlags.fromBits, hflags]
  refine ⟨⟨k.pidTop, q, C, k.pcb.heapPos, k.pcb.mmapPos, "/", k.pcb.fdManager, []⟩,
    ⟨m₇, ino, ofs, dc, sin, sout, k.pidTop + 1, K',
      k.procs ++ [⟨k.pidTop, q, C, k.pcb.heapPos, k.pcb.mmapPos, "/", k.pcb.fdManager, []⟩],
      { k.pcb with children := if k.pidTop ∈ k.pcb.children then k.pcb.children
        else k.pcb.children ++ [k.pidTop] }⟩, ?_, ⟨rfl, rfl, rfl, rfl, rfl, rfl, rfl, hshape, hC₇,
      ht₃.fresh, hCS, fun vpn hv hne => ?_, ⟨fl, htf, (hlC₇ _).trans hq⟩, ?_, hS₇, hlS₇,
      fun r hr => ?_, ?_⟩⟩
  · -- the run, one statement of `sys_clone` after the other
    rw [sysClone, StateT.run_bind_of_ok (x := get) rfl]
    dsimp only
    rw [StateT.run_bind_of_ok (Kernel.allocPid_run k), hfb,
      StateT.run_bind_of_ok (x := unwrap _) rfl, StateT.run_bind_of_ok hnew,
      StateT.run_bind_of_ok (Kernel.onMachine_run (k := { machine := _, .. }) hrun₂),
      StateT.run_bind_of_ok (Kernel.onMachine_run (k := { machine := _, .. }) hrun₃),
      StateT.run_bind_of_ok (Kernel.onMachine_run (k := { machine := _, .. }) hrun₄),
      StateT.run_bind_of_ok (x := get) rfl]
    dsimp only
    rw [StateT.run_bind_of_ok (Kernel.onMachine_run (k := { machine := _, .. }) hrun₅),
      StateT.run_bind_of_ok (x := modify _) rfl, StateT.ite_seq, StateT.ite_seq,
      StateT.run_bind_of_ok hrun₆,
      StateT.run_bind_of_ok hrun₇]
    rfl
  · -- a page other than the trap frame's is in another frame than `q`, which keeps its bytes
    obtain ⟨p', q', fl', h₁, h₂, h₃⟩ := hcopied vpn hv
    have hvlt := hS.lt_of_mem_pages hv
    have hvt : vpn ≠ trampolineVpn := by
      rintro rfl
      simp [trampolineVpn] at hvlt
    obtain ⟨b, hb, hqb, -⟩ := hC₃.area_of_lookup (by omega) hvt h₂
    have hq'C : q' ∈ C.frames := MemorySet.mem_frames_of_mem hb hqb
    have hq'W : q' ∉ (q :: k.kernelSpace.pageTable.frames) ++ F ++ [q] ++ [q] := fun h => by
      rcases hW q' h with rfl | hK | hF
      · exact hne (hC₃.lookup_inj (by omega) (by decide) hvt (by decide) h₂ hq)
      · exact hKC q' hK hq'C
      · exact ht₅.fresh q' hF (hC₃.owned q' hq'C)
    exact ⟨p', q', fl', h₁, (hlC₇ vpn).trans h₂,
      (hstep₃.bytes_eq hq'W (lookup_ppn_lt h₂)).trans h₃⟩
  · -- the trap frame: the copy, `x[10]`, `kernel_sp`, then the two conditional stores
    dsimp only at hread₆ hread₇
    rw [hread₇, hread₆, hread₅, hparent, Nat.mod_eq_of_lt hstack, Nat.mod_eq_of_lt htls]
    rfl
  · exact hstep₀.bytes_eq (fun h => hW₀ r h hr) (hS.valid.alloc.lt_of_owns (hS.owned r hr))
  · -- the kernel stack, which the two stores leave mapped
    have hks₇ := hks₅.of_step hK'₅ (hs₆.trans hs₇) (fun r hr hrK => by
      simp only [List.mem_append, List.mem_singleton, or_self] at hr
      rw [hr] at hrK
      exact (hK'fr q hrK).elim (fun h => hKC q h hqC) hqF) hinv₇
    exact ⟨hks₇.stack, fun vpn hlt hn => (hks₇.other vpn hlt hn).trans (hK₃.2 vpn)⟩

/-- `fork` copies the parent's space faithfully and independently. `from_existed_user` on the
parent's user space gives a user space with the same areas, every page mapped with the parent's
flags to a frame that holds the bytes of the parent's, the trampoline mapped, and only frames
the parent does not hold. `sys_clone`, with flags `CloneFlags::from_bits` accepts, gives the
child such a copy and the parent's trap frame with `x[10] = 0`, its own kernel stack, and
`x[2]`, `x[4]` replaced as asked. -/
theorem sysClone_copies_space {strampoline flags stack ptid tls ctid : Nat} {k : Kernel}
    {fl : PTEFlags} (hS : k.pcb.memorySet.UserWF strampoline k.machine)
    (hal : strampoline % 4096 = 0) (hlt : strampoline < 2 ^ 56)
    (htf : lookup k.machine.mem k.pcb.memorySet.pageTable.rootPpn trapframeVpn =
      some (k.pcb.trapframePpn, fl))
    (hK : k.kernelSpace.pageTable.Valid k.machine)
    (hKS : ∀ r ∈ k.kernelSpace.pageTable.frames, r ∉ k.pcb.memorySet.frames)
    (hpid : k.pidTop < 2 ^ 25)
    (hKun : ∀ vpn : VirtPageNum, 2 ^ 27 - 3 - 2 * k.pidTop ≤ vpn.val →
      vpn.val < 2 ^ 27 - 1 - 2 * k.pidTop →
      lookup k.machine.mem k.kernelSpace.pageTable.rootPpn vpn = none)
    (hflags : UInt32.ofNat flags &&& ~~~0x3f &&& ~~~CloneFlags.all = 0)
    (hstack : stack < 2 ^ 64) (htls : tls < 2 ^ 64)
    (hfree : 10 + 3 * k.pcb.memorySet.pages.length ≤ k.machine.frameAllocator.free) :
    (∃ C m', (MemorySet.fromExistedUser strampoline k.pcb.memorySet).run k.machine = .ok (C, m') ∧
      C.areas.map MapArea.shape = k.pcb.memorySet.areas.map MapArea.shape ∧
      C.UserWF strampoline m' ∧
      (∀ vpn ∈ k.pcb.memorySet.pages, ∃ p q fl,
        lookup k.machine.mem k.pcb.memorySet.pageTable.rootPpn vpn = some (p, fl) ∧
        lookup m'.mem C.pageTable.rootPpn vpn = some (q, fl) ∧
        m'.mem.bytes q.base pageSize = k.machine.mem.bytes p.base pageSize) ∧
      (∀ q ∈ C.frames, q ∉ k.pcb.memorySet.frames) ∧
      lookup m'.mem C.pageTable.rootPpn trampolineVpn =
        some (⟨strampoline / 4096⟩, PTEFlags.R ||| PTEFlags.X ||| PTEFlags.V)) ∧
    ∃ child k', (sysClone strampoline flags stack ptid tls ctid).run k =
        .ok (toIsize k.pidTop, k') ∧
      Forked strampoline k stack tls
        ((⟨UInt32.ofNat flags &&& ~~~0x3f⟩ : CloneFlags).contains CloneFlags.cloneSettls)
        child k' := by
  obtain ⟨C, m', hrun, hshape, hc, -⟩ := MemorySet.fromExistedUser_spec hS hal hlt (by omega)
  refine ⟨⟨C, m', hrun, hshape, hc.wf, hc.copied, fun q hq hqS => hc.takes.fresh q hq
    (hS.owned q hqS), ?_⟩, sysClone_spec hS hal hlt htf hK hKS hpid hKun hflags hstack htls hfree⟩
  rw [hc.wf.maps _ (by decide), MemorySet.expected_trampoline]

/-- The first `fork` of a process that `from_elf` loaded from the sample file, whose space holds
a data segment with the file's sixteen bytes, the user stack, the trap frame page and the
trampoline, in a kernel whose space is a bare table made before it. -/
theorem sysClone_copies_space_first_fork :
    ∃ (K S : MemorySet) (m : Machine) (f : PhysPageNum) (fl : PTEFlags),
      (do
        let K ← MemorySet.newBare
        let (S, _) ← MemorySet.fromElf 0x80200000 MemorySet.sampleElf
        pure (K, S) : KernelM Machine (MemorySet × MemorySet)).run MemorySet.sampleMachine =
          .ok ((K, S), m) ∧
      let k : Kernel := ⟨m, [], [], [], [], [], 1, K, [], ⟨0, f, S, ⟨0⟩, ⟨0⟩, "/", ⟨[]⟩, []⟩⟩
      k.pcb.memorySet.UserWF 0x80200000 k.machine ∧ 0x80200000 % 4096 = 0 ∧
      0x80200000 < 2 ^ 56 ∧
      lookup k.machine.mem k.pcb.memorySet.pageTable.rootPpn trapframeVpn =
        some (k.pcb.trapframePpn, fl) ∧
      k.kernelSpace.pageTable.Valid k.machine ∧
      (∀ r ∈ k.kernelSpace.pageTable.frames, r ∉ k.pcb.memorySet.frames) ∧
      k.pidTop < 2 ^ 25 ∧
      (∀ vpn : VirtPageNum, 2 ^ 27 - 3 - 2 * k.pidTop ≤ vpn.val →
        vpn.val < 2 ^ 27 - 1 - 2 * k.pidTop →
        lookup k.machine.mem k.kernelSpace.pageTable.rootPpn vpn = none) ∧
      UInt32.ofNat 17 &&& ~~~0x3f &&& ~~~CloneFlags.all = 0 ∧ 0 < 2 ^ 64 ∧ 0 < 2 ^ 64 ∧
      10 + 3 * k.pcb.memorySet.pages.length ≤ k.machine.frameAllocator.free ∧
      (∃ C m', (MemorySet.fromExistedUser 0x80200000 k.pcb.memorySet).run k.machine =
          .ok (C, m') ∧
        C.areas.map MapArea.shape = k.pcb.memorySet.areas.map MapArea.shape ∧
        C.UserWF 0x80200000 m' ∧
        (∀ vpn ∈ k.pcb.memorySet.pages, ∃ p q fl,
          lookup k.machine.mem k.pcb.memorySet.pageTable.rootPpn vpn = some (p, fl) ∧
          lookup m'.mem C.pageTable.rootPpn vpn = some (q, fl) ∧
          m'.mem.bytes q.base pageSize = k.machine.mem.bytes p.base pageSize) ∧
        (∀ q ∈ C.frames, q ∉ k.pcb.memorySet.frames) ∧
        lookup m'.mem C.pageTable.rootPpn trampolineVpn =
          some (⟨0x80200000 / 4096⟩, PTEFlags.R ||| PTEFlags.X ||| PTEFlags.V)) ∧
      ∃ child k', (sysClone 0x80200000 17 0 0 0 0).run k = .ok (toIsize k.pidTop, k') ∧
        Forked 0x80200000 k 0 0
          ((⟨UInt32.ofNat 17 &&& ~~~0x3f⟩ : CloneFlags).contains CloneFlags.cloneSettls)
          child k' := by
  -- the run returns, and leaves the frames the copy takes: three per page and ten more
  have hok : ((do
      let K ← MemorySet.newBare
      let (S, _) ← MemorySet.fromElf 0x80200000 MemorySet.sampleElf
      pure (K, S) : KernelM Machine (MemorySet × MemorySet)).run MemorySet.sampleMachine).map
        (fun r => decide (10 + 3 * r.1.2.pages.length ≤ r.2.frameAllocator.free)) = .ok true := by
    decide +kernel
  obtain ⟨Kpt, m₁, hrunK, hvK, hlK, -, -⟩ := MemorySet.newBare_spec MemorySet.sampleMachine_inv
    (by decide)
  cases hrun : (do
      let K ← MemorySet.newBare
      let (S, _) ← MemorySet.fromElf 0x80200000 MemorySet.sampleElf
      pure (K, S) : KernelM Machine (MemorySet × MemorySet)).run MemorySet.sampleMachine with
  | error e =>
    rw [hrun] at hok
    cases hok
  | ok r =>
  obtain ⟨⟨K, S⟩, m⟩ := r
  have hfree : 10 + 3 * S.pages.length ≤ m.frameAllocator.free := by
    rw [hrun] at hok
    simpa [Except.map] using hok
  -- the kernel's table, then `from_elf` on the machine it leaves
  obtain ⟨K', m₁', h₁, h₂⟩ := StateT.run_bind_eq_ok hrun
  rw [hrunK] at h₁
  cases h₁
  obtain ⟨⟨S', heap, sp, entry⟩, m₂, hrunS, h₃⟩ := StateT.run_bind_eq_ok h₂
  cases h₃
  obtain ⟨hwf, htS, hareas, -, -⟩ := MemorySet.fromElf_ok hvK.alloc (by decide) (by decide)
    (by decide) MemorySet.sampleElf_fits hrunS
  -- the trap frame page lies in the last area
  obtain ⟨a, ha, hab⟩ : ∃ a ∈ S.areas, a.bounds = MemorySet.trapframeArea.bounds :=
    List.mem_map.mp (by rw [hareas]; simp)
  simp only [MapArea.bounds, MemorySet.trapframeArea, Prod.mk.injEq] at hab
  obtain ⟨hl, hr, -⟩ := hab
  have hmemA : trapframeVpn ∈ a.vpnRange.toList :=
    VPNRange.mem_toList.mpr ⟨by rw [hl]; rfl, by rw [hr]; decide⟩
  obtain ⟨f, -, hexp⟩ := hwf.expected_of_mem ha hmemA
  -- the kernel's table is none of the frames `from_elf` took
  obtain ⟨hvK₃, hlK₃⟩ := hvK.of_step htS.step
    (fun r hr hrK => htS.fresh r (by rwa [List.nil_append] at hr) (hvK.owned r hrK))
    hwf.valid.alloc
  have hKS : ∀ r ∈ Kpt.frames, r ∉ S.frames := fun r hr hrS => htS.fresh r hrS (hvK.owned r hr)
  refine ⟨⟨Kpt, []⟩, S, m, f, ⟨a.mapPerm.bits⟩ ||| PTEFlags.V, rfl, ?_⟩
  intro k
  have htf := (hwf.maps _ (by decide)).trans hexp
  have hKun : ∀ vpn : VirtPageNum, 2 ^ 27 - 3 - 2 * 1 ≤ vpn.val → vpn.val < 2 ^ 27 - 1 - 2 * 1 →
      lookup m.mem Kpt.rootPpn vpn = none := fun vpn _ _ => (hlK₃ vpn).trans (hlK vpn)
  exact ⟨hwf, by decide, by decide, htf, hvK₃, hKS, show 1 < 2 ^ 25 by decide, hKun, by decide,
    by decide, by decide, hfree, sysClone_copies_space (k := k) hwf (by decide) (by decide) htf
      hvK₃ hKS (show 1 < 2 ^ 25 by decide) hKun (by decide) (by decide) (by decide) hfree⟩

/-- A clone request with bit 6 set panics at `from_bits(..).unwrap()`, whatever the state. -/
theorem sysClone_panics_on_bit_six (strampoline stack ptid tls ctid : Nat) (k : Kernel) :
    (sysClone strampoline 0x40 stack ptid tls ctid).run k = .error .unwrapNone := by
  simp [sysClone, Kernel.allocPid_run, CloneFlags.fromBits, CloneFlags.all, unwrap]
  rfl

/-- `clone(0x40, 0, 0, 0, 0)` from a process with no areas and no descriptors, on zeroed memory:
the panic comes before any frame is taken. -/
theorem sysClone_flags_0x40_panics :
    (sysClone 0x80200000 0x40 0 0 0 0).run
      ⟨⟨fun _ => 0, StackFrameAllocator.new.init ⟨0x80000⟩ ⟨0x88000⟩⟩, [], [], [], [], [], 1,
        ⟨⟨⟨0⟩, []⟩, []⟩, [], ⟨0, ⟨0⟩, ⟨⟨⟨1⟩, []⟩, []⟩, ⟨0⟩, ⟨0⟩, "/", ⟨[]⟩, []⟩⟩ =
      .error .unwrapNone :=
  sysClone_panics_on_bit_six 0x80200000 0 0 0 0 _

end Thread

end NaiveOs
