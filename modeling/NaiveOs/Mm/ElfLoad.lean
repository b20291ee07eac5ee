import Mathlib
import NaiveOs.Mm.AddressSpace
import NaiveOs.Mm.UserBuffer

/-!
# Loading an ELF file (`MemorySet::from_elf`)

`from_elf` builds a user space: a bare table, the trampoline, one `Framed` area per `PT_LOAD`
program header holding the segment's bytes, the user stack and the trap frame page. What a run
that returns has built is stated as partial correctness: a run either panics or satisfies
`fromElf_ok`.

- `copyData_ok`: `MapArea::copy_data` puts page `j` of the data into the frame of the area's
  page `l + j` and leaves zero after the end of the data, on frames `FrameTracker::new` zeroed;
- `push_ok`: `push` of a new area, with or without data, keeps `UserWF` and `Keeps` what the
  space mapped before, with its bytes;
- `loadSegment_ok` and `Built`: the loop over the program headers. The copy starts at the
  page-aligned offset `p_offset - p_offset % 4096` and at the page of `p_vaddr`, so that with
  `p_vaddr ≡ p_offset` modulo the page size the byte at `p_vaddr + i` is the file's byte
  `p_offset + i` (`fileBytes_getD`);
- `fromElf_loads_segments`, `fromElf_user_space`, `fromElf_heap_start`: the image of each
  segment, the space built, and the heap start. That is the end of the last segment, not of the
  highest, as `From<VirtAddr> for usize` converts it, sign-extended from `2 ^ 38` on.

`PageTable::map` asserts that a page is not mapped yet, so a run that returns found every page
it mapped free: segments that share a page, or overlap the trampoline, the user stack or the
trap frame page, make `from_elf` panic, and no hypothesis of disjointness is needed.
-/

namespace NaiveOs

open PageTable

attribute [ext] PhysPageNum

/-! ## Copying a segment's bytes (`MapArea::copy_data`) -/

namespace MapArea

theorem copyDataLoop_succ (pt : PageTable) (data : List UInt8) (fuel start : Nat)
    (vpn : VirtPageNum) :
    copyDataLoop pt data (fuel + 1) start vpn = (do
      let src ← slice data start (min data.length (start + pageSize))
      let pte ← unwrap (pt.translate (← get).mem vpn)
      copyToFrame pte.ppn src
      if start + pageSize ≥ data.length then pure ()
      else copyDataLoop pt data fuel (start + pageSize) ⟨wrap (vpn.val + 1)⟩) := rfl

/-- The page of `data` that one iteration of the copy loop copies: from `start` to the next page
boundary or the end of `data`. -/
theorem copyDataLoop_succ_run {pt : PageTable} {data : List UInt8} {fuel start : Nat}
    {vpn : VirtPageNum} {m : Machine} (hk : start ≤ data.length) {pte : PageTableEntry}
    (htr : pt.translate m.mem vpn = some pte) :
    (copyDataLoop pt data (fuel + 1) start vpn).run m =
      (if start + pageSize ≥ data.length then pure ()
        else copyDataLoop pt data fuel (start + pageSize) ⟨wrap (vpn.val + 1)⟩).run
        ⟨m.mem.writeBytes pte.ppn.base ((data.take (min data.length (start + pageSize))).drop start),
          m.frameAllocator⟩ := by
  rw [copyDataLoop_succ]
  simp [slice, hk, htr, unwrap, copyToFrame]

/-- The byte `o` of the frame after page `k` of `data` is copied into a zeroed frame: the byte of
`data` there, or zero past its end. -/
theorem writeBytes_page {mem : ByteMem} {f : PhysPageNum} (hf : f.val < 2 ^ 44)
    {data : List UInt8} {k o : Nat} (ho : o < 4096) (hz : mem (f.val * 4096 + o) = 0) :
    mem.writeBytes f.base ((data.take (min data.length (4096 * k + pageSize))).drop (4096 * k))
      (f.val * 4096 + o) = (data[4096 * k + o]?).getD 0 := by
  rw [PhysPageNum.base_eq hf]
  by_cases hlt : 4096 * k + o < data.length
  · rw [ByteMem.writeBytes_apply_inside _ _ _ (by simp [pageSize]; omega)]
    simp [List.getElem?_eq_getElem hlt, pageSize]
  · rw [ByteMem.writeBytes, ByteMem.store_apply_outside _ _ (by simp [pageSize]; omega), hz,
      List.getElem?_eq_none (by omega)]
    rfl

/-- The copy loop of `copy_data` from page `k` of `data` on, where page `l + j` is mapped to the
frame `F j` for `j < R`, the frames are distinct, none is the table's, and those from `k` on are
still zero: a run that returns fills each of those with its page of `data`, zero past the end of
`data`, and writes nothing else. -/
theorem copyDataLoop_ok {pt : PageTable} {data : List UInt8} {l R : Nat} {F : Nat → PhysPageNum}
    (hlen : data.length ≤ 4096 * R) (hlR : l + R ≤ 2 ^ 27)
    (hinj : ∀ i < R, ∀ j < R, F i = F j → i = j) (htab : ∀ j < R, F j ∉ pt.frames) :
    ∀ (fuel k : Nat) (m m' : Machine), pt.Valid m →
      (∀ j < R, ∃ fl, lookup m.mem pt.rootPpn ⟨l + j⟩ = some (F j, fl)) →
      (∀ j, k ≤ j → j < R → ∀ o < 4096, m.mem ((F j).val * 4096 + o) = 0) →
      4096 * k ≤ data.length → data.length ≤ 4096 * (k + fuel) →
      (copyDataLoop pt data fuel (4096 * k) ⟨l + k⟩).run m = .ok ((), m') →
      Machine.Step ((List.range' k (R - k)).map F) m m' ∧ m'.frameAllocator = m.frameAllocator ∧
        ∀ j, k ≤ j → j < R → ∀ o < 4096,
          m'.mem ((F j).val * 4096 + o) = (data[4096 * j + o]?).getD 0 := by
  intro fuel
  induction fuel with
  | zero =>
    -- the fuel runs out only past the end of `data`, where the frames keep their zeros
    intro k m m' _ _ hz _ hfuel h
    cases h
    refine ⟨Machine.Step.refl _ _, rfl, fun j hj hjR o ho => ?_⟩
    rw [hz j hj hjR o ho, List.getElem?_eq_none (by omega)]
    rfl
  | succ fuel ih =>
    intro k m m' hv hF hz hk hfuel h
    -- the page the loop reached is mapped, or `unwrap` would have panicked
    obtain ⟨pte, htr⟩ : ∃ pte, pt.translate m.mem ⟨l + k⟩ = some pte := by
      cases htr : pt.translate m.mem ⟨l + k⟩ with
      | none =>
        rw [copyDataLoop_succ] at h
        simp [slice, hk, htr, unwrap] at h
        cases h
      | some pte => exact ⟨pte, rfl⟩
    rw [copyDataLoop_succ_run hk htr] at h
    by_cases hkR : k < R
    · obtain ⟨fl, hl⟩ := hF k hkR
      obtain ⟨pte', htr', hppn⟩ := translate_of_lookup hl
      rw [htr] at htr'
      cases htr'
      have hflt : (F k).val < 2 ^ 44 := lookup_ppn_lt hl
      rw [hppn] at h
      have hstep := Machine.step_writeBytes m hflt
        (show ((data.take (min data.length (4096 * k + pageSize))).drop (4096 * k)).length ≤
          pageSize by simp [pageSize]; omega)
      -- the page `k` is copied, and the frames of the later pages are not touched
      have hbyte : ∀ o < 4096, m.mem.writeBytes (F k).base
          ((data.take (min data.length (4096 * k + pageSize))).drop (4096 * k))
          ((F k).val * 4096 + o) = (data[4096 * k + o]?).getD 0 :=
        fun o ho => writeBytes_page hflt ho (hz k le_rfl hkR o ho)
      have hother : ∀ j, k < j → j < R → ∀ o < 4096, m.mem.writeBytes (F k).base
          ((data.take (min data.length (4096 * k + pageSize))).drop (4096 * k))
          ((F j).val * 4096 + o) = m.mem ((F j).val * 4096 + o) := by
        intro j hkj hjR o ho
        refine hstep.frame_eq (fun w hw heq => ?_) ho
        rw [List.mem_singleton] at hw
        subst hw
        exact absurd (hinj k hkR j hjR (PhysPageNum.ext heq)) (by omega)
      split_ifs at h with hend
      · -- the data ends in this page: the later frames keep their zeros
        cases h
        refine ⟨hstep.mono fun q hq => ?_, rfl, fun j hj hjR o ho => ?_⟩
        · rw [List.mem_singleton] at hq
          exact hq ▸ List.mem_map_of_mem (List.mem_range'_1.mpr ⟨le_rfl, by omega⟩)
        · rcases Nat.eq_or_lt_of_le hj with rfl | hkj
          · exact hbyte o ho
          · dsimp only
            rw [hother j hkj hjR o ho, hz j hj hjR o ho,
              List.getElem?_eq_none (by simp only [pageSize] at hend; omega)]
            rfl
      · -- the loop goes on with the next page
        have hnext : (⟨wrap ((⟨l + k⟩ : VirtPageNum).val + 1)⟩ : VirtPageNum) = ⟨l + (k + 1)⟩ := by
          show (⟨wrap (l + k + 1)⟩ : VirtPageNum) = _
          rw [wrap_of_lt (by omega)]
          rfl
        rw [hnext, show 4096 * k + pageSize = 4096 * (k + 1) by simp only [pageSize]; omega] at h
        obtain ⟨hv₁, hl₁⟩ := hv.of_step hstep (fun q hq => by
          rw [List.mem_singleton] at hq
          exact hq ▸ htab k hkR) hv.alloc
        obtain ⟨hs, hfa, hb⟩ := ih (k + 1) _ m' hv₁ (fun j hj => by rw [hl₁]; exact hF j hj)
          (fun j hj hjR o ho => (hother j (by omega) hjR o ho).trans (hz j (by omega) hjR o ho))
          (by simp only [pageSize] at hend; omega) (by omega) h
        refine ⟨(hstep.trans hs).mono fun q hq => ?_, hfa, fun j hj hjR o ho => ?_⟩
        · simp only [List.mem_append, List.mem_singleton, List.mem_map, List.mem_range'_1] at hq ⊢
          rcases hq with rfl | ⟨j, ⟨hj₁, hj₂⟩, rfl⟩
          · exact ⟨k, ⟨le_rfl, by omega⟩, rfl⟩
          · exact ⟨j, ⟨by omega, by omega⟩, rfl⟩
        · rcases Nat.eq_or_lt_of_le hj with rfl | hkj
          · rw [hs.frame_eq (fun w hw heq => ?_) ho]
            · exact hbyte o ho
            · obtain ⟨j', hj', rfl⟩ := List.mem_map.mp hw
              have := List.mem_range'_1.mp hj'
              exact absurd (hinj j' (by omega) k hkR (PhysPageNum.ext heq)) (by omega)
          · exact hb j hkj hjR o ho
    · -- past the area: the page of `data` is empty and nothing is written
      have hnil : (data.take (min data.length (4096 * k + pageSize))).drop (4096 * k) = [] := by
        simp
        omega
      rw [hnil, ByteMem.writeBytes_nil, if_pos (by simp [pageSize]; omega)] at h
      cases h
      refine ⟨?_, rfl, fun j hj hjR => absurd hjR (by omega)⟩
      rw [show R - k = 0 by omega]
      exact Machine.Step.refl _ _

/-- `copy_data` of an area whose pages are mapped, page `l + j` to the `j`-th frame it tracks,
with distinct frames that are zero and none of the table's, and at most a page of `data` per page
of the area: a run that returns fills the frame of page `l + j` with page `j` of `data`, zero past
the end of `data`, and writes no other frame. -/
theorem copyData_ok {a : MapArea} {pt : PageTable} {data : List UInt8} {m m' : Machine}
    (hv : pt.Valid m) (hlen : data.length ≤ 4096 * a.vpnRange.toList.length)
    (hlt : a.vpnRange.r.val ≤ 2 ^ 27) (hkeys : a.dataFrames.map Prod.fst = a.vpnRange.toList)
    (hnd : (a.dataFrames.map Prod.snd).Nodup)
    (hmap : ∀ p ∈ a.dataFrames, ∃ fl, lookup m.mem pt.rootPpn p.1 = some (p.2, fl))
    (htab : ∀ p ∈ a.dataFrames, p.2 ∉ pt.frames)
    (hzero : ∀ p ∈ a.dataFrames, ∀ o < 4096, m.mem (p.2.val * 4096 + o) = 0)
    (h : (a.copyData pt data).run m = .ok ((), m')) :
    Machine.Step (a.dataFrames.map Prod.snd) m m' ∧ m'.frameAllocator = m.frameAllocator ∧
      ∀ p ∈ a.dataFrames, ∀ o < 4096,
        m'.mem (p.2.val * 4096 + o) = (data[4096 * (p.1.val - a.vpnRange.l.val) + o]?).getD 0 := by
  unfold copyData at h
  split_ifs at h with hft
  · cases h
  dsimp only at h
  -- the `j`-th tracked pair is page `l + j` and its frame `F j`
  set D := a.dataFrames with hD
  set l := a.vpnRange.l.val with hl
  have hDlen : D.length = a.vpnRange.r.val - l := by
    rw [← List.length_map (f := Prod.fst), hkeys]
    simp [VPNRange.toList, hl]
  let F : Nat → PhysPageNum := fun j => (D[j]?.map Prod.snd).getD ⟨0⟩
  have hDj : ∀ j (hj : j < D.length), D[j] = (⟨l + j⟩, F j) := by
    intro j hj
    have hk := congrArg (·[j]?) hkeys
    simp only [List.getElem?_map, List.getElem?_eq_getElem hj, VPNRange.toList] at hk
    rw [List.getElem?_range' (by rw [← hDlen]; exact hj)] at hk
    simp only [Option.map_some, Option.some.injEq, Nat.one_mul] at hk
    simp only [F, List.getElem?_eq_getElem hj, Option.map_some, Option.getD_some]
    exact Prod.ext hk rfl
  have hmem : ∀ j (hj : j < D.length), (⟨l + j⟩, F j) ∈ D := fun j hj => hDj j hj ▸ List.getElem_mem hj
  have hinj : ∀ i < D.length, ∀ j < D.length, F i = F j → i = j := by
    intro i hi j hj hij
    have hpair := List.inj_on_of_nodup_map hnd (hmem i hi) (hmem j hj) hij
    simp only [Prod.mk.injEq, VirtPageNum.mk.injEq] at hpair
    omega
  have hR : a.vpnRange.toList.length = D.length := by rw [← hkeys, List.length_map]
  have hvpn : a.vpnRange.l = ⟨l + 0⟩ := rfl
  rw [← Nat.mul_zero 4096, hvpn] at h
  obtain ⟨hs, hfa, hb⟩ := copyDataLoop_ok (l := l) (F := F) (by rw [← hR]; exact hlen)
    (by have := a.vpnRange.le; omega) hinj (fun j hj => htab (⟨l + j⟩, F j) (hmem j hj)) _ 0 m m'
    hv (fun j hj => hmap (⟨l + j⟩, F j) (hmem j hj))
    (fun j _ hj o ho => hzero (⟨l + j⟩, F j) (hmem j hj) o ho) (Nat.zero_le _)
    (by simp only [pageSize]; omega) h
  refine ⟨hs.mono fun q hq => ?_, hfa, fun p hp o ho => ?_⟩
  · obtain ⟨j, hj, rfl⟩ := List.mem_map.mp hq
    rw [List.mem_range'_1] at hj
    exact List.mem_map_of_mem (hmem j (by omega))
  · obtain ⟨j, hj, rfl⟩ := List.mem_iff_getElem.mp hp
    rw [hDj j hj]
    simpa using hb j (Nat.zero_le j) hj o ho

end MapArea

/-! ## Runs that keep a space -/

/-- A run keeps what the table rooted at `root` maps below the trampoline page: each such page
stays mapped to the same frame with the same flags, and the frame keeps its bytes. -/
def Keeps (root : PhysPageNum) (m m' : Machine) : Prop :=
  ∀ vpn : VirtPageNum, vpn.val < 2 ^ 27 - 1 → ∀ f fl, lookup m.mem root vpn = some (f, fl) →
    lookup m'.mem root vpn = some (f, fl) ∧
      ∀ o < 4096, m'.mem (f.val * 4096 + o) = m.mem (f.val * 4096 + o)

namespace Keeps

theorem refl (root : PhysPageNum) (m : Machine) : Keeps root m m :=
  fun _ _ _ _ h => ⟨h, fun _ _ => rfl⟩

theorem trans {root : PhysPageNum} {m m' m'' : Machine} (h : Keeps root m m')
    (h' : Keeps root m' m'') : Keeps root m m'' := by
  intro vpn hv f fl hl
  obtain ⟨hl', hb'⟩ := h vpn hv f fl hl
  obtain ⟨hl'', hb''⟩ := h' vpn hv f fl hl'
  exact ⟨hl'', fun o ho => (hb'' o ho).trans (hb' o ho)⟩

end Keeps

namespace MemorySet

/-- A run that takes frames, writes only them and the table's, and keeps the mappings below the
trampoline page keeps a user space's pages and their bytes: their frames are the areas'. -/
theorem UserWF.keeps_of_takes {strampoline : Nat} {ms : MemorySet} {m m' : Machine}
    (hwf : ms.UserWF strampoline m) {F : List PhysPageNum}
    (ht : Machine.Takes ms.pageTable.frames F m m')
    (hl : ∀ vpn : VirtPageNum, vpn.val < 2 ^ 27 - 1 → ∀ x,
      lookup m.mem ms.pageTable.rootPpn vpn = some x →
        lookup m'.mem ms.pageTable.rootPpn vpn = some x) :
    Keeps ms.pageTable.rootPpn m m' := by
  intro vpn hv f fl hf
  have hne : vpn ≠ trampolineVpn := fun h => by simp [h, trampolineVpn] at hv
  obtain ⟨a, ha, hva, -⟩ := hwf.area_of_lookup (by omega) hne hf
  exact ⟨hl vpn hv _ hf, fun o ho => ht.frame_eq
    (hwf.owned f (mem_frames_of_mem ha hva)) (hwf.data_not_mem_table ha hva) ho⟩

theorem push_eq (ms : MemorySet) (area : MapArea) (data : Option (List UInt8)) :
    ms.push area data = (area.map ms.pageTable >>= fun r =>
      (match data with
        | some d => r.1.copyData r.2 d
        | none => pure ()) >>= fun _ => pure ⟨r.2, ms.areas ++ [r.1]⟩) := by
  cases data <;> simp [push]

/-- A run of `push` on a user space that returns, of a `Framed` area that tracks nothing yet on
pages below `2 ^ 27`, with at most a page of `data` per page of the area. The pages were
neither the trampoline's nor any area's; they are now mapped to fresh frames that hold `data`
page by page, and zeros past its end; the space is a user space again, and it keeps what it
mapped before, with the bytes. -/
theorem push_ok {strampoline : Nat} {ms : MemorySet} {m : Machine}
    (hwf : ms.UserWF strampoline m) {area : MapArea} (hframed : area.mapType = .framed)
    (hdf : area.dataFrames = []) (hlt : area.vpnRange.r.val ≤ 2 ^ 27)
    {data : Option (List UInt8)} (hlen : ∀ d ∈ data, d.length ≤ 4096 * area.vpnRange.toList.length)
    {ms' : MemorySet} {m' : Machine} (h : (ms.push area data).run m = .ok (ms', m')) :
    ∃ D F, ms'.areas = ms.areas ++ [{ area with dataFrames := D }] ∧
      ms'.pageTable.rootPpn = ms.pageTable.rootPpn ∧ ms'.UserWF strampoline m' ∧
      (∀ vpn ∈ area.vpnRange.toList, vpn.val < 2 ^ 27 - 1 ∧ vpn ∉ ms.pages) ∧
      ms'.frames.Perm (ms.frames ++ F) ∧ Machine.Takes ms.pageTable.frames F m m' ∧
      Keeps ms.pageTable.rootPpn m m' ∧
      ∀ p ∈ D, ∀ o < 4096, m'.mem (p.2.val * 4096 + o) =
        ((data.getD [])[4096 * (p.1.val - area.vpnRange.l.val) + o]?).getD 0 := by
  have hlt' : ∀ vpn ∈ area.vpnRange.toList, vpn.val < 2 ^ 27 := fun v hv => by
    have := (VPNRange.mem_toList.mp hv).2
    omega
  rw [push_eq] at h
  obtain ⟨⟨a₁, pt₁⟩, m₁, h₁, h⟩ := StateT.run_bind_eq_ok h
  obtain ⟨D, Q, rfl, hi, hun, hz⟩ := MapArea.map_ok hwf.valid hframed hdf hlt' h₁
  -- the pages were unmapped, so they are new to the space
  have hnew : ∀ vpn ∈ area.vpnRange.toList, vpn.val < 2 ^ 27 - 1 ∧ vpn ∉ ms.pages :=
    fun v hv => hwf.new_of_lookup_eq_none (hlt' v hv) (hun v hv)
  obtain ⟨hwf₁, hperm⟩ := hwf.push_of_mapInv hframed (fun v hv => (hnew v hv).1)
    (fun v hv => (hnew v hv).2) hi
  -- `map` keeps every page mapped before: none of them is in the new area
  have hl₁ : ∀ vpn : VirtPageNum, vpn.val < 2 ^ 27 - 1 → ∀ x,
      lookup m.mem ms.pageTable.rootPpn vpn = some x →
        lookup m₁.mem ms.pageTable.rootPpn vpn = some x := by
    intro vpn hv x hx
    have hnone : ({ area with dataFrames := D } : MapArea).mapping vpn = none :=
      MapArea.mapping_eq_none fun hk => by
        rw [hi.keys] at hk
        rw [hun vpn hk] at hx
        cases hx
    rw [hi.maps vpn (by omega), hnone, Option.none_or, hx]
  obtain ⟨⟨⟩, m₂, h₂, h⟩ := StateT.run_bind_eq_ok h
  cases h
  cases data with
  | none =>
    cases h₂
    exact ⟨D, D.map Prod.snd ++ Q, rfl, hi.root, hwf₁, hnew, hperm, hi.takes,
      hwf.keeps_of_takes hi.takes hl₁, fun p hp o ho => by
        rw [hz p hp o ho]
        rfl⟩
  | some d =>
    -- `copy_data` fills the new frames, which are none of the table's
    have hnT : ∀ p ∈ D, p.2 ∉ pt₁.frames := fun p hp => hi.not_mem_frames hwf.valid hp
    have hkeys : D.map Prod.fst = area.vpnRange.toList := hi.keys
    obtain ⟨hs, hfa, himg⟩ := MapArea.copyData_ok (a := { area with dataFrames := D }) hi.valid
      (hlen d rfl) hlt hkeys (List.Nodup.of_append_left hi.takes.nodup)
      (fun p hp => ⟨_, by
        rw [hi.root, hi.maps p.1 (hlt' p.1 (hkeys ▸ List.mem_map_of_mem hp)),
          MapArea.mapping_of_mem (hkeys ▸ area.vpnRange.toList_nodup) hp]
        rfl⟩) hnT hz h₂
    obtain ⟨hwf₂, hl₂⟩ := hwf₁.of_step hs (fun q hq => by
      obtain ⟨p, hp, rfl⟩ := List.mem_map.mp hq
      exact hnT p hp) (hfa ▸ hwf₁.valid.alloc)
    have ht : Machine.Takes ms.pageTable.frames (D.map Prod.snd ++ Q) m m' := by
      have := hi.takes.trans (Machine.Takes.of_step hs) fun q hq => .inr (List.mem_append_left _ hq)
      rwa [List.append_nil] at this
    refine ⟨D, D.map Prod.snd ++ Q, rfl, hi.root, hwf₂, hnew, hperm, ht,
      hwf.keeps_of_takes ht fun vpn hv x hx => ?_, himg⟩
    rw [show ms.pageTable.rootPpn = pt₁.rootPpn from hi.root.symm, hl₂ vpn, hi.root]
    exact hl₁ vpn hv x hx

/-- What a user sees of a pushed area: each of its pages is mapped, with the area's permission,
to a frame holding that page of `data`, and zeros past its end. -/
theorem push_pages {strampoline : Nat} {ms : MemorySet} {m : Machine}
    (hwf : ms.UserWF strampoline m) {area : MapArea} (hframed : area.mapType = .framed)
    (hdf : area.dataFrames = []) (hlt : area.vpnRange.r.val ≤ 2 ^ 27)
    {data : Option (List UInt8)} (hlen : ∀ d ∈ data, d.length ≤ 4096 * area.vpnRange.toList.length)
    {ms' : MemorySet} {m' : Machine} (h : (ms.push area data).run m = .ok (ms', m')) :
    ms'.pageTable.rootPpn = ms.pageTable.rootPpn ∧ ms'.UserWF strampoline m' ∧
      Keeps ms.pageTable.rootPpn m m' ∧
      ∀ vpn ∈ area.vpnRange.toList, ∃ f, lookup m'.mem ms.pageTable.rootPpn vpn =
          some (f, ⟨area.mapPerm.bits⟩ ||| PTEFlags.V) ∧
        ∀ o < 4096, m'.mem (f.val * 4096 + o) =
          ((data.getD [])[4096 * (vpn.val - area.vpnRange.l.val) + o]?).getD 0 := by
  obtain ⟨D, -, hareas, hroot, hwf', -, -, -, hk, himg⟩ := push_ok hwf hframed hdf hlt hlen h
  refine ⟨hroot, hwf', hk, fun vpn hv => ?_⟩
  -- the page is in the new area, mapped to the frame the area tracks for it
  have ha : { area with dataFrames := D } ∈ ms'.areas :=
    hareas ▸ List.mem_append_right _ (List.mem_singleton_self _)
  obtain ⟨f, hf, he⟩ := hwf'.expected_of_mem ha hv
  have hv' : vpn.val < 2 ^ 27 := by
    have := (VPNRange.mem_toList.mp hv).2
    omega
  exact ⟨f, by rw [← hroot, hwf'.maps _ hv', he], fun o ho => himg _ hf o ho⟩

end MemorySet

/-! ## What a user reads -/

/-- The byte a user load at `va` reads through a table: `translate_va`, then the byte at that
physical address. -/
def userByte (pt : PageTable) (mem : ByteMem) (va : Nat) : Option UInt8 :=
  (pt.translateVa mem (VirtAddr.ofUsize va)).map fun pa => mem pa.val

/-- A load from a page the table maps reads the byte of the page's frame at the address's
offset. -/
theorem userByte_of_lookup {pt : PageTable} {mem : ByteMem} {va : Nat} (hva : va < 2 ^ 39)
    {f : PhysPageNum} {fl : PTEFlags} (h : lookup mem pt.rootPpn ⟨va / 4096⟩ = some (f, fl)) :
    userByte pt mem va = some (mem (f.val * 4096 + va % 4096)) := by
  have hva' : (VirtAddr.ofUsize va).val = va := by
    rw [VirtAddr.ofUsize_val, Nat.mod_eq_of_lt hva]
  have hfloor : (VirtAddr.ofUsize va).floor = ⟨va / 4096⟩ := by
    simp only [VirtAddr.floor, hva', pageSize]
  obtain ⟨pte, htr, hppn⟩ := translate_of_lookup h
  -- `translate` found the leaf entry that `translate_va` reads
  obtain ⟨a, ha, rfl⟩ : ∃ a, pt.findPte mem ⟨va / 4096⟩ = some a ∧ readPte mem a = pte := by
    simpa only [PageTable.translate, Option.map_eq_some_iff] using htr
  rw [userByte, PageTable.translateVa_of_findPte (hfloor ▸ ha), Option.map_some, hppn,
    PhysPageNum.base_eq (lookup_ppn_lt h), hva']

/-- The slices of a tiling hold, in order, the bytes a user load reads at each byte of the
range. -/
theorem PageTable.Tiles.bytes_eq_userByte {pt : PageTable} {mem : ByteMem} {p n : Nat}
    {slices : List PhysSlice} (ht : pt.Tiles mem p n slices) :
    (slices.flatMap fun s => mem.bytes s.start s.len).map some =
      (List.range n).map fun i => userByte pt mem (p + i) := by
  have hflat : (slices.flatMap fun s => mem.bytes s.start s.len) =
      (slices.flatMap PhysSlice.addrs).map fun a => mem a := by
    rw [List.map_flatMap]
    refine List.flatMap_congr fun s _ => ?_
    simp [ByteMem.bytes, PhysSlice.addrs, List.range'_eq_map_range]
  have hb := congrArg (List.map (Option.map fun pa : PhysAddr => mem pa.val)) ht.backs
  simp only [List.map_map, PageTable.backing] at hb
  rw [hflat, List.map_map]
  simpa [Function.comp_def, userByte] using hb

/-! ## Segments -/

namespace ProgramHeader

/-- The `PT_LOAD` headers `from_elf` loads as their images: the virtual address and the file
offset agree modulo the page size, the file bytes fit in the segment and lie in the file, and
the segment ends below the last page of Sv39, the trampoline's. -/
structure Fits (ph : ProgramHeader) (input : List UInt8) : Prop where
  congr : ph.virtualAddr % 4096 = ph.offset % 4096
  file_le : ph.fileSize ≤ ph.memSize
  in_file : ph.offset + ph.fileSize ≤ input.length
  below : ph.virtualAddr + ph.memSize ≤ 2 ^ 39 - 4096

/-- Byte `i` of a segment's image: the file's byte at `p_offset + i` for the first `p_filesz`
bytes, zero after them. -/
def image (ph : ProgramHeader) (input : List UInt8) (i : Nat) : UInt8 :=
  if i < ph.fileSize then (input[ph.offset + i]?).getD 0 else 0

/-- The page after a segment's last byte. -/
def endVpn (ph : ProgramHeader) : Nat := (ph.virtualAddr + ph.memSize + 4095) / 4096

/-- The area `from_elf` makes of a segment that fits: its pages, `Framed`, no frames yet. -/
def area (ph : ProgramHeader) : MapArea :=
  ⟨⟨⟨ph.virtualAddr / 4096⟩, ⟨ph.endVpn⟩, by simp only [endVpn]; omega⟩, [], .framed, ph.mapPerm⟩

/-- The bytes `from_elf` copies into a segment's area: the file from the page-aligned offset to
the end of the segment's file bytes. -/
def fileBytes (ph : ProgramHeader) (input : List UInt8) : List UInt8 :=
  (input.take (ph.offset + ph.fileSize)).drop (ph.offset - ph.offset % 4096)

/-- A segment is loaded through the table at `root` when each of its bytes lies on a page mapped
with the segment's permission to a frame holding the byte of the image. -/
def Loaded (ph : ProgramHeader) (input : List UInt8) (root : PhysPageNum) (m : Machine) : Prop :=
  ∀ i < ph.memSize, ∃ f, lookup m.mem root ⟨(ph.virtualAddr + i) / 4096⟩ =
      some (f, ⟨ph.mapPerm.bits⟩ ||| PTEFlags.V) ∧
    m.mem (f.val * 4096 + (ph.virtualAddr + i) % 4096) = ph.image input i

variable {ph : ProgramHeader} {input : List UInt8}

theorem Loaded.of_keeps {root : PhysPageNum} {m m' : Machine} (hl : ph.Loaded input root m)
    (hfit : ph.Fits input) (hk : Keeps root m m') : ph.Loaded input root m' := by
  intro i hi
  obtain ⟨f, hf, hb⟩ := hl i hi
  have hlt : (ph.virtualAddr + i) / 4096 < 2 ^ 27 - 1 := by
    have := hfit.below
    omega
  obtain ⟨hf', hb'⟩ := hk ⟨(ph.virtualAddr + i) / 4096⟩ hlt f _ hf
  exact ⟨f, hf', (hb' _ (Nat.mod_lt _ (by norm_num))).trans hb⟩

theorem fileBytes_length (hfit : ph.Fits input) :
    (ph.fileBytes input).length = ph.offset % 4096 + ph.fileSize := by
  have := hfit.in_file
  simp only [fileBytes, List.length_drop, List.length_take]
  omega

/-- Byte `i` of a segment's image is the byte the copy puts at the address of byte `i`: page
`(p_vaddr + i) / 4096 - p_vaddr / 4096` of the copied bytes, at the offset of `p_vaddr + i`,
which is `p_offset % 4096 + i` bytes into them. -/
theorem fileBytes_getD (hfit : ph.Fits input) (i : Nat) :
    ((ph.fileBytes input)[4096 * ((ph.virtualAddr + i) / 4096 - ph.virtualAddr / 4096) +
      (ph.virtualAddr + i) % 4096]?).getD 0 = ph.image input i := by
  have hcongr := hfit.congr
  have hidx : 4096 * ((ph.virtualAddr + i) / 4096 - ph.virtualAddr / 4096) +
      (ph.virtualAddr + i) % 4096 = ph.offset % 4096 + i := by
    omega
  rw [hidx, fileBytes, List.getElem?_drop, List.getElem?_take,
    show ph.offset - ph.offset % 4096 + (ph.offset % 4096 + i) = ph.offset + i by omega]
  unfold image
  split_ifs with h₁ h₂ h₂
  · rfl
  · omega
  · omega
  · rfl

theorem area_toList_length (ph : ProgramHeader) :
    ph.area.vpnRange.toList.length = ph.endVpn - ph.virtualAddr / 4096 := by
  simp [area, VPNRange.toList]

theorem mem_area_toList {i : Nat} (hi : i < ph.memSize) :
    (⟨(ph.virtualAddr + i) / 4096⟩ : VirtPageNum) ∈ ph.area.vpnRange.toList := by
  refine VPNRange.mem_toList.mpr ⟨?_, ?_⟩ <;> simp only [area, endVpn] <;> omega

end ProgramHeader

namespace MemorySet

open ProgramHeader

/-- A `PT_LOAD` header that fits: the iteration pushes its area with the bytes from the
page-aligned offset, and remembers the area's end page. -/
theorem loadSegment_run (elf : ElfFile) (acc : MemorySet × VirtPageNum) {ph : ProgramHeader}
    (hload : ph.isLoad = true) (hfit : ph.Fits elf.input) (hin : elf.input.length < 2 ^ 64)
    (m : Machine) :
    (loadSegment elf acc ph).run m =
      (acc.1.push ph.area (some (ph.fileBytes elf.input)) >>= fun ms =>
        pure (ms, ⟨ph.endVpn⟩)).run m := by
  have hv : ph.virtualAddr < 2 ^ 39 := by
    have := hfit.below
    omega
  have hnew : MapArea.new (VirtAddr.ofUsize ph.virtualAddr)
      (VirtAddr.ofUsize (wrap (ph.virtualAddr + ph.memSize))) .framed ph.mapPerm = .ok ph.area := by
    have he : (VirtAddr.ofUsize (wrap (ph.virtualAddr + ph.memSize))).val =
        ph.virtualAddr + ph.memSize := by
      have := hfit.below
      rw [wrap_of_lt (by omega), VirtAddr.ofUsize_val, Nat.mod_eq_of_lt (by omega)]
    have hfloor : (VirtAddr.ofUsize ph.virtualAddr).floor = ⟨ph.virtualAddr / 4096⟩ := by
      simp only [VirtAddr.floor, VirtAddr.ofUsize_val, Nat.mod_eq_of_lt hv, pageSize]
    have hceil : (VirtAddr.ofUsize (wrap (ph.virtualAddr + ph.memSize))).ceil = ⟨ph.endVpn⟩ := by
      have := hfit.below
      have hc := VirtAddr.ceil_val (v := VirtAddr.ofUsize (wrap (ph.virtualAddr + ph.memSize)))
        (by rw [he]; omega)
      rw [he] at hc
      rw [endVpn, ← hc]
    rw [MapArea.new, VPNRange.new, hfloor, hceil, dif_pos (show (⟨ph.virtualAddr / 4096⟩ :
      VirtPageNum).val ≤ (⟨ph.endVpn⟩ : VirtPageNum).val from (area ph).vpnRange.le)]
    rfl
  have hslice : (slice elf.input (ph.offset - ph.offset % 4096) (wrap (ph.offset + ph.fileSize)) :
      KernelM Machine (List UInt8)) = pure (ph.fileBytes elf.input) := by
    have := hfit.in_file
    rw [wrap_of_lt (by omega), slice, if_pos ⟨by omega, this⟩]
    rfl
  have hlift : (liftM (MapArea.new (VirtAddr.ofUsize ph.virtualAddr)
      (VirtAddr.ofUsize (wrap (ph.virtualAddr + ph.memSize))) .framed ph.mapPerm) :
        KernelM Machine MapArea).run m = .ok (ph.area, m) := by
    rw [hnew]
    rfl
  simp only [loadSegment, hload, Bool.not_true, Bool.false_eq_true, if_false]
  rw [StateT.run_bind_of_ok hlift, hslice]
  rfl

/-- Other headers are skipped. -/
theorem loadSegment_skip (elf : ElfFile) (acc : MemorySet × VirtPageNum) {ph : ProgramHeader}
    (hload : ph.isLoad = false) : loadSegment elf acc ph = pure acc := by
  simp [loadSegment, hload]

/-- A run of one iteration of the loop of `from_elf` on a `PT_LOAD` header that fits, from a user
space, that returns: the segment's area is pushed and the segment loaded, the space stays a user
space and keeps what it mapped, and the end page of the area is remembered. -/
theorem loadSegment_ok {strampoline : Nat} {elf : ElfFile} {acc : MemorySet × VirtPageNum}
    {ph : ProgramHeader} {m : Machine} (hwf : acc.1.UserWF strampoline m)
    (hload : ph.isLoad = true) (hfit : ph.Fits elf.input) (hin : elf.input.length < 2 ^ 64)
    {acc' : MemorySet × VirtPageNum} {m' : Machine}
    (h : (loadSegment elf acc ph).run m = .ok (acc', m')) :
    ∃ D F, acc'.1.areas = acc.1.areas ++ [{ ph.area with dataFrames := D }] ∧
      acc'.2 = ⟨ph.endVpn⟩ ∧ acc'.1.pageTable.rootPpn = acc.1.pageTable.rootPpn ∧
      acc'.1.UserWF strampoline m' ∧ acc'.1.frames.Perm (acc.1.frames ++ F) ∧
      Machine.Takes acc.1.pageTable.frames F m m' ∧ Keeps acc.1.pageTable.rootPpn m m' ∧
      ph.Loaded elf.input acc.1.pageTable.rootPpn m' := by
  rw [loadSegment_run elf acc hload hfit hin] at h
  obtain ⟨ms', m₁, h₁, h⟩ := StateT.run_bind_eq_ok h
  cases h
  -- at most a page of the copied bytes per page of the area
  have hlen : (ph.fileBytes elf.input).length ≤ 4096 * ph.area.vpnRange.toList.length := by
    rw [fileBytes_length hfit, area_toList_length]
    have := hfit.congr
    have := hfit.file_le
    simp only [endVpn]
    omega
  obtain ⟨D, F, hareas, hroot, hwf', hnew, hperm, ht, hk, himg⟩ := push_ok hwf rfl rfl
    (by have := hfit.below; simp only [area, endVpn]; omega) (fun d hd => by
      rw [Option.mem_some_iff] at hd
      exact hd ▸ hlen) h₁
  refine ⟨D, F, hareas, rfl, hroot, hwf', hperm, ht, hk, fun i hi => ?_⟩
  -- the page of byte `i` is in the new area, mapped to the frame it tracks
  have hv := mem_area_toList hi
  have ha : { ph.area with dataFrames := D } ∈ ms'.areas :=
    hareas ▸ List.mem_append_right _ (List.mem_singleton_self _)
  obtain ⟨f, hf, he⟩ := hwf'.expected_of_mem ha hv
  have hlt : (ph.virtualAddr + i) / 4096 < 2 ^ 27 := by
    have := hfit.below
    omega
  refine ⟨f, ?_, ?_⟩
  · rw [← hroot, hwf'.maps _ hlt, he]
    rfl
  · rw [himg _ hf _ (Nat.mod_lt _ (by norm_num))]
    exact fileBytes_getD hfit i

end MemorySet

/-! ## `from_elf` -/

/-- An area's range of pages and its permission. -/
def MapArea.bounds (a : MapArea) : Nat × Nat × MapPermission :=
  (a.vpnRange.l.val, a.vpnRange.r.val, a.mapPerm)

/-- The range of pages and the permission of the area `from_elf` makes of a segment. -/
def ProgramHeader.bounds (ph : ProgramHeader) : Nat × Nat × MapPermission :=
  (ph.virtualAddr / 4096, ph.endVpn, ph.mapPerm)

namespace MemorySet

open ProgramHeader

/-- What the loop of `from_elf` has built after the program headers `done`, from `m₀`: a user
space on the table rooted at `root`, whose areas are those of the `PT_LOAD` headers of `done` in
order, each segment loaded; the end page of the last of them; and a space made of frames the
allocator did not own in `m₀`, of which only they were written. -/
structure Built (strampoline : Nat) (elf : ElfFile) (m₀ : Machine) (root : PhysPageNum)
    (done : List ProgramHeader) (acc : MemorySet × VirtPageNum) (m : Machine) : Prop where
  wf : acc.1.UserWF strampoline m
  root_eq : acc.1.pageTable.rootPpn = root
  areas : acc.1.areas.map MapArea.bounds = (done.filter isLoad).map ProgramHeader.bounds
  loaded : ∀ ph ∈ done, ph.isLoad → ph.Loaded elf.input root m
  last : acc.2.val = ((done.filter isLoad).getLast?.map endVpn).getD 0
  takes : Machine.Takes [] acc.1.frames m₀ m

/-- A run that takes more frames for a space keeps it made of frames free in `m₀`. -/
theorem takes_push {m₀ m m' : Machine} {ms ms' : MemorySet} {F : List PhysPageNum}
    (ht₀ : Machine.Takes [] ms.frames m₀ m) (hperm : ms'.frames.Perm (ms.frames ++ F))
    (ht : Machine.Takes ms.pageTable.frames F m m') : Machine.Takes [] ms'.frames m₀ m' := by
  have := ht₀.trans ht fun q hq => .inr (List.mem_append_left _ hq)
  exact this.perm hperm.symm

/-- One iteration of the loop of `from_elf` that returns keeps `Built`. -/
theorem Built.step {strampoline : Nat} {elf : ElfFile} {m₀ : Machine} {root : PhysPageNum}
    {done : List ProgramHeader} {acc : MemorySet × VirtPageNum} {ph : ProgramHeader}
    (hfit : ∀ ph' ∈ done ++ [ph], ph'.isLoad → ph'.Fits elf.input)
    (hin : elf.input.length < 2 ^ 64) :
    Returns (Built strampoline elf m₀ root done acc) (loadSegment elf acc ph)
      fun acc' => Built strampoline elf m₀ root (done ++ [ph]) acc' := by
  intro m acc' m' hb h
  cases hload : ph.isLoad with
  | false =>
    -- a header other than `PT_LOAD` changes nothing
    rw [loadSegment_skip elf acc hload] at h
    cases h
    refine ⟨hb.wf, hb.root_eq, ?_, fun ph' hph' hl => ?_, ?_, hb.takes⟩
    · simp [List.filter_append, hload, hb.areas]
    · rcases List.mem_append.mp hph' with hph' | hph'
      · exact hb.loaded ph' hph' hl
      · rw [List.mem_singleton] at hph'
        rw [hph', hload] at hl
        cases hl
    · simp [List.filter_append, hload, hb.last]
  | true =>
    obtain ⟨D, F, hareas, hlast, hroot, hwf', hperm, ht, hk, hload'⟩ :=
      loadSegment_ok hb.wf hload (hfit ph (List.mem_append_right _ (List.mem_singleton_self _))
        hload) hin h
    refine ⟨hwf', hroot.trans hb.root_eq, ?_, fun ph' hph' hl => ?_, ?_,
      takes_push hb.takes hperm ht⟩
    · rw [hareas, List.map_append, hb.areas]
      simp [List.filter_append, hload]
      rfl
    · rcases List.mem_append.mp hph' with hph' | hph'
      · exact (hb.loaded ph' hph' hl).of_keeps (hfit ph' (List.mem_append_left _ hph') hl)
          (hb.root_eq ▸ hk)
      · rw [List.mem_singleton] at hph'
        exact hph' ▸ hb.root_eq ▸ hload'
    · simp [List.filter_append, hload, hlast]

/-- The user stack area `from_elf` pushes, `[USER_STACK_TOP - 2 * USER_STACK_SIZE,
USER_STACK_TOP)` for `USER_STACK_TOP = TRAPFRAME - USER_STACK_SIZE`: the pages `2 ^ 27 - 8` to
`2 ^ 27 - 4` of Sv39, readable and writable by the user. -/
def userStackArea : MapArea :=
  ⟨⟨⟨2 ^ 27 - 8⟩, ⟨2 ^ 27 - 4⟩, by decide⟩, [], .framed,
    MapPermission.R ||| MapPermission.W ||| MapPermission.U⟩

/-- The trap frame area `from_elf` pushes, `[TRAPFRAME, TRAMPOLINE)`: the page `2 ^ 27 - 2`,
readable and writable by the kernel only. -/
def trapframeArea : MapArea :=
  ⟨⟨⟨2 ^ 27 - 2⟩, ⟨2 ^ 27 - 1⟩, by decide⟩, [], .framed, MapPermission.R ||| MapPermission.W⟩

theorem new_userStackArea :
    (liftM (MapArea.new (VirtAddr.ofUsize (trapframe - userStackSize - userStackSize * 2))
      (VirtAddr.ofUsize (trapframe - userStackSize)) .framed
      (MapPermission.R ||| MapPermission.W ||| MapPermission.U)) : KernelM Machine MapArea) =
      pure userStackArea := rfl

theorem new_trapframeArea :
    (liftM (MapArea.new (VirtAddr.ofUsize trapframe) (VirtAddr.ofUsize trampoline) .framed
      (MapPermission.R ||| MapPermission.W)) : KernelM Machine MapArea) = pure trapframeArea := rfl

/-- A run of `push` without data on a user space made of frames free in `m₀`, in which some
segments are loaded: the space stays such a user space on the same table, with the area
recorded, and the segments stay loaded. -/
theorem push_none_loaded {strampoline : Nat} {input : List UInt8} {L : List ProgramHeader}
    {m₀ m : Machine} {ms : MemorySet} (hwf : ms.UserWF strampoline m)
    (hfit : ∀ ph ∈ L, ph.isLoad → ph.Fits input)
    (hload : ∀ ph ∈ L, ph.isLoad → ph.Loaded input ms.pageTable.rootPpn m)
    (ht₀ : Machine.Takes [] ms.frames m₀ m) {area : MapArea} (hframed : area.mapType = .framed)
    (hdf : area.dataFrames = []) (hlt : area.vpnRange.r.val ≤ 2 ^ 27) {ms' : MemorySet}
    {m' : Machine} (h : (ms.push area none).run m = .ok (ms', m')) :
    ∃ D, ms'.areas = ms.areas ++ [{ area with dataFrames := D }] ∧
      ms'.pageTable.rootPpn = ms.pageTable.rootPpn ∧ ms'.UserWF strampoline m' ∧
      (∀ ph ∈ L, ph.isLoad → ph.Loaded input ms.pageTable.rootPpn m') ∧
      Machine.Takes [] ms'.frames m₀ m' := by
  obtain ⟨D, F, hareas, hroot, hwf', -, hperm, ht, hk, -⟩ :=
    push_ok hwf hframed hdf hlt (fun d hd => by cases hd) h
  exact ⟨D, hareas, hroot, hwf', fun ph hph hl => (hload ph hph hl).of_keeps (hfit ph hph hl) hk,
    takes_push ht₀ hperm ht⟩

/-- A run of `from_elf` that returns, from a machine whose allocator keeps its invariant, with the
trampoline code on a page-aligned physical address, on a file whose `PT_LOAD` segments fit:
a user space made of frames that were free, of which only they were written, whose areas are
the segments' in order, then the user stack and the trap frame page; every segment loaded; and
the heap start at the end page of the last segment, as `VirtAddr` converts it to `usize`. -/
theorem fromElf_ok {strampoline : Nat} {elf : ElfFile} {m : Machine}
    (hfa : m.frameAllocator.Inv) (hal : strampoline % 4096 = 0) (hlt : strampoline < 2 ^ 56)
    (hin : elf.input.length < 2 ^ 64)
    (hfit : ∀ ph ∈ elf.programHeaders, ph.isLoad → ph.Fits elf.input)
    {ms : MemorySet} {heap sp entry : Nat} {m' : Machine}
    (h : (fromElf strampoline elf).run m = .ok ((ms, heap, sp, entry), m')) :
    ms.UserWF strampoline m' ∧ Machine.Takes [] ms.frames m m' ∧
      ms.areas.map MapArea.bounds =
        (elf.programHeaders.filter isLoad).map ProgramHeader.bounds ++
          [userStackArea.bounds, trapframeArea.bounds] ∧
      (∀ ph ∈ elf.programHeaders, ph.isLoad → ph.Loaded elf.input ms.pageTable.rootPpn m') ∧
      heap = (VirtAddr.ofVirtPageNum
        ⟨((elf.programHeaders.filter isLoad).getLast?.map endVpn).getD 0⟩).toUsize := by
  rw [fromElf, ← bind_assoc] at h
  obtain ⟨ms₂, m₂, h₂, h⟩ := StateT.run_bind_eq_ok h
  -- a file without the ELF magic panics
  split_ifs at h with hmagic
  · cases h
  obtain ⟨hareas₂, hwf₂, ht₂⟩ := bareUser_ok hfa hal hlt h₂
  dsimp only at h
  -- the loop over the program headers
  obtain ⟨⟨ms₃, vpn₃⟩, m₃, h₃, h⟩ := StateT.run_bind_eq_ok h
  have hb₃ := Returns.foldlM (f := loadSegment elf)
    (fun done acc m₁ => Built strampoline elf m ms₂.pageTable.rootPpn done acc m₁)
    elf.programHeaders [] (ms₂, ⟨0⟩) (fun done ph rest acc hsplit => Built.step (fun ph' hph' =>
      hfit ph' (by
        rw [List.nil_append] at hsplit
        rw [hsplit, List.mem_append, List.mem_cons]
        rw [List.mem_append, List.mem_singleton] at hph'
        tauto)) hin)
    m₂ _ m₃ ⟨hwf₂, rfl, by simp [hareas₂], by simp, rfl, by simpa using ht₂⟩ h₃
  rw [List.nil_append] at hb₃
  dsimp only at h
  -- the user stack, then the trap frame page
  rw [new_userStackArea, pure_bind] at h
  obtain ⟨ms₄, m₄, h₄, h⟩ := StateT.run_bind_eq_ok h
  rw [new_trapframeArea, pure_bind] at h
  obtain ⟨ms₅, m₅, h₅, h⟩ := StateT.run_bind_eq_ok h
  cases h
  obtain ⟨D₄, hareas₄, hroot₄, hwf₄, hload₄, ht₄⟩ := push_none_loaded hb₃.wf hfit
    (hb₃.root_eq ▸ hb₃.loaded) hb₃.takes rfl rfl (by decide) h₄
  rw [← hroot₄] at hload₄
  obtain ⟨D₅, hareas₅, hroot₅, hwf₅, hload₅, ht₅⟩ := push_none_loaded hwf₄ hfit
    hload₄ ht₄ rfl rfl (by decide) h₅
  refine ⟨hwf₅, ht₅, ?_, ?_, ?_⟩
  · rw [hareas₅, hareas₄, List.map_append, List.map_append, hb₃.areas, List.append_assoc]
    rfl
  · rw [hroot₅]
    exact hload₅
  · have hlast : vpn₃ = ⟨((elf.programHeaders.filter isLoad).getLast?.map endVpn).getD 0⟩ := by
      rw [← hb₃.last]
    rw [hlast]

/-- A file with one `PT_LOAD` segment of sixteen file bytes in a page and a half of memory, and
one header of another type. -/
def sampleElf : ElfFile :=
  ⟨[0x7f, 0x45, 0x4c, 0x46], 0x1000,
    [⟨true, 0x1000, 0x1800, 0, 16, true, false, true⟩, ⟨false, 0, 0, 0, 0, false, false, false⟩],
    (List.range 16).map Nat.toUInt8⟩

/-- Zeroed memory with the frames `0x80000` to `0x88000` free. -/
def sampleMachine : Machine := ⟨fun _ => 0, StackFrameAllocator.new.init ⟨0x80000⟩ ⟨0x88000⟩⟩

theorem sampleElf_fits : ∀ ph ∈ sampleElf.programHeaders, ph.isLoad → ph.Fits sampleElf.input := by
  intro ph hph hl
  simp only [sampleElf, List.mem_cons, List.not_mem_nil, or_false] at hph
  rcases hph with rfl | rfl
  · exact ⟨by decide, by decide, by decide, by decide⟩
  · cases hl

theorem sampleMachine_inv : sampleMachine.frameAllocator.Inv :=
  StackFrameAllocator.inv_init (by decide) (by decide)

/-- `from_elf` returns on the sample file. -/
theorem sampleElf_returns :
    ∃ r m', (fromElf 0x80200000 sampleElf).run sampleMachine = .ok (r, m') := by
  have hok : ((fromElf 0x80200000 sampleElf).run sampleMachine).isOk = true := by decide +kernel
  revert hok
  cases (fromElf 0x80200000 sampleElf).run sampleMachine with
  | ok r => exact fun _ => ⟨r.1, r.2, rfl⟩
  | error e => exact fun h => absurd h Bool.false_ne_true

/-- **`from_elf` loads each segment's image.** A run of `from_elf` that returns, from a machine
whose allocator keeps its invariant, with the trampoline code on a page-aligned physical
address, on a file whose `PT_LOAD` segments fit (`p_vaddr ≡ p_offset` modulo the page size,
`p_filesz ≤ p_memsz`, the file bytes inside the file, the segment below the trampoline page):
for every such segment and every `i < p_memsz`, a user load at `p_vaddr + i` through the
returned table reads the file's byte `p_offset + i` for `i < p_filesz` and zero after it, and
the page of that byte is mapped with `U` and the `R`, `W`, `X` bits of the header's flags. -/
theorem fromElf_loads_segments {strampoline : Nat} {elf : ElfFile} {m : Machine}
    (hfa : m.frameAllocator.Inv) (hal : strampoline % 4096 = 0) (hlt : strampoline < 2 ^ 56)
    (hin : elf.input.length < 2 ^ 64)
    (hfit : ∀ ph ∈ elf.programHeaders, ph.isLoad → ph.Fits elf.input)
    {ms : MemorySet} {heap sp entry : Nat} {m' : Machine}
    (h : (fromElf strampoline elf).run m = .ok ((ms, heap, sp, entry), m')) :
    ∀ ph ∈ elf.programHeaders, ph.isLoad → ∀ i < ph.memSize,
      userByte ms.pageTable m'.mem (ph.virtualAddr + i) =
        some (if i < ph.fileSize then (elf.input[ph.offset + i]?).getD 0 else 0) ∧
      ∃ f, lookup m'.mem ms.pageTable.rootPpn ⟨(ph.virtualAddr + i) / 4096⟩ =
        some (f, ⟨ph.mapPerm.bits⟩ ||| PTEFlags.V) := by
  intro ph hph hl i hi
  obtain ⟨-, -, -, hload, -⟩ := fromElf_ok hfa hal hlt hin hfit h
  obtain ⟨f, hf, hb⟩ := hload ph hph hl i hi
  have hva : ph.virtualAddr + i < 2 ^ 39 := by
    have := (hfit ph hph hl).below
    omega
  exact ⟨(userByte_of_lookup hva hf).trans (congrArg some hb), f, hf⟩

theorem fromElf_loads_segments_sample :
    ∃ ms heap sp entry m', (fromElf 0x80200000 sampleElf).run sampleMachine =
        .ok ((ms, heap, sp, entry), m') ∧
      ∀ ph ∈ sampleElf.programHeaders, ph.isLoad → ∀ i < ph.memSize,
        userByte ms.pageTable m'.mem (ph.virtualAddr + i) =
          some (if i < ph.fileSize then (sampleElf.input[ph.offset + i]?).getD 0 else 0) ∧
        ∃ f, lookup m'.mem ms.pageTable.rootPpn ⟨(ph.virtualAddr + i) / 4096⟩ =
          some (f, ⟨ph.mapPerm.bits⟩ ||| PTEFlags.V) := by
  obtain ⟨⟨ms, heap, sp, entry⟩, m', h⟩ := sampleElf_returns
  exact ⟨ms, heap, sp, entry, m', h, fromElf_loads_segments sampleMachine_inv (by decide)
    (by decide) (by decide) sampleElf_fits h⟩

/-- **`from_elf` builds a user space.** A run of `from_elf` that returns, under the hypotheses of
`fromElf_loads_segments`, gives a space that keeps the address-space invariant `UserWF`: its
table maps exactly the trampoline page and the pages of its areas, each to a frame of its own
with the area's permission. The areas are the `PT_LOAD` segments' in the order of the program
headers, each from the page of `p_vaddr` to the page after its end with the header's
permission, then the user stack and the trap frame page; and the space is made of distinct
frames that were free before, of which only they were written. -/
theorem fromElf_user_space {strampoline : Nat} {elf : ElfFile} {m : Machine}
    (hfa : m.frameAllocator.Inv) (hal : strampoline % 4096 = 0) (hlt : strampoline < 2 ^ 56)
    (hin : elf.input.length < 2 ^ 64)
    (hfit : ∀ ph ∈ elf.programHeaders, ph.isLoad → ph.Fits elf.input)
    {ms : MemorySet} {heap sp entry : Nat} {m' : Machine}
    (h : (fromElf strampoline elf).run m = .ok ((ms, heap, sp, entry), m')) :
    ms.UserWF strampoline m' ∧ Machine.Takes [] ms.frames m m' ∧
      ms.areas.map MapArea.bounds =
        ((elf.programHeaders.filter isLoad).map fun ph =>
            (ph.virtualAddr / 4096, (ph.virtualAddr + ph.memSize + 4095) / 4096, ph.mapPerm)) ++
          [(2 ^ 27 - 8, 2 ^ 27 - 4, MapPermission.R ||| MapPermission.W ||| MapPermission.U),
            (2 ^ 27 - 2, 2 ^ 27 - 1, MapPermission.R ||| MapPermission.W)] := by
  obtain ⟨hwf, ht, hareas, -, -⟩ := fromElf_ok hfa hal hlt hin hfit h
  exact ⟨hwf, ht, hareas⟩

theorem fromElf_user_space_sample :
    ∃ ms heap sp entry m', (fromElf 0x80200000 sampleElf).run sampleMachine =
        .ok ((ms, heap, sp, entry), m') ∧
      ms.UserWF 0x80200000 m' ∧ Machine.Takes [] ms.frames sampleMachine m' ∧
      ms.areas.map MapArea.bounds =
        ((sampleElf.programHeaders.filter isLoad).map fun ph =>
            (ph.virtualAddr / 4096, (ph.virtualAddr + ph.memSize + 4095) / 4096, ph.mapPerm)) ++
          [(2 ^ 27 - 8, 2 ^ 27 - 4, MapPermission.R ||| MapPermission.W ||| MapPermission.U),
            (2 ^ 27 - 2, 2 ^ 27 - 1, MapPermission.R ||| MapPermission.W)] := by
  obtain ⟨⟨ms, heap, sp, entry⟩, m', h⟩ := sampleElf_returns
  exact ⟨ms, heap, sp, entry, m', h, fromElf_user_space sampleMachine_inv (by decide) (by decide)
    (by decide) sampleElf_fits h⟩

/-- **The heap start `from_elf` returns** is the page-rounded end of the last `PT_LOAD` segment in
the order of the program headers (not the highest one), converted to `usize` as a `VirtAddr`:
below `2 ^ 38` it is the rounded end itself, from `2 ^ 38` on it is sign-extended into the upper
half. Without a `PT_LOAD` segment it is zero. -/
theorem fromElf_heap_start {strampoline : Nat} {elf : ElfFile} {m : Machine}
    (hfa : m.frameAllocator.Inv) (hal : strampoline % 4096 = 0) (hlt : strampoline < 2 ^ 56)
    (hin : elf.input.length < 2 ^ 64)
    (hfit : ∀ ph ∈ elf.programHeaders, ph.isLoad → ph.Fits elf.input)
    {ms : MemorySet} {heap sp entry : Nat} {m' : Machine}
    (h : (fromElf strampoline elf).run m = .ok ((ms, heap, sp, entry), m')) :
    ((elf.programHeaders.filter isLoad).getLast? = none → heap = 0) ∧
      ∀ ph, (elf.programHeaders.filter isLoad).getLast? = some ph →
        heap = if (ph.virtualAddr + ph.memSize + 4095) / 4096 * 4096 < 2 ^ 38
          then (ph.virtualAddr + ph.memSize + 4095) / 4096 * 4096
          else (ph.virtualAddr + ph.memSize + 4095) / 4096 * 4096 + (2 ^ 64 - 2 ^ 39) := by
  obtain ⟨-, -, -, -, hheap⟩ := fromElf_ok hfa hal hlt hin hfit h
  refine ⟨fun hnone => ?_, fun ph hlast => ?_⟩
  · rw [hheap, hnone]
    rfl
  · -- the last segment is one of the headers, so it ends below the trampoline page
    have hmem : ph ∈ elf.programHeaders.filter isLoad := List.mem_of_getLast? hlast
    rw [List.mem_filter] at hmem
    have hbelow := (hfit ph hmem.1 hmem.2).below
    have hval : (VirtAddr.ofVirtPageNum ⟨ph.endVpn⟩).val =
        (ph.virtualAddr + ph.memSize + 4095) / 4096 * 4096 :=
      VirtAddr.ofVirtPageNum_val (by simp only [endVpn]; omega)
    rw [hheap, hlast, Option.map_some, Option.getD_some]
    split_ifs with hlow
    · rw [VirtAddr.toUsize_of_lt (hval ▸ hlow), hval]
    · rw [VirtAddr.toUsize_of_ge (by omega) (by omega), hval]


theorem fromElf_heap_start_sample :
    ∃ ms heap sp entry m', (fromElf 0x80200000 sampleElf).run sampleMachine =
        .ok ((ms, heap, sp, entry), m') ∧
      ((sampleElf.programHeaders.filter isLoad).getLast? = none → heap = 0) ∧
      ∀ ph, (sampleElf.programHeaders.filter isLoad).getLast? = some ph →
        heap = if (ph.virtualAddr + ph.memSize + 4095) / 4096 * 4096 < 2 ^ 38
          then (ph.virtualAddr + ph.memSize + 4095) / 4096 * 4096
          else (ph.virtualAddr + ph.memSize + 4095) / 4096 * 4096 + (2 ^ 64 - 2 ^ 39) := by
  obtain ⟨⟨ms, heap, sp, entry⟩, m', h⟩ := sampleElf_returns
  exact ⟨ms, heap, sp, entry, m', h, fromElf_heap_start sampleMachine_inv (by decide) (by decide)
    (by decide) sampleElf_fits h⟩
end MemorySet

end NaiveOs
