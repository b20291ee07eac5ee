import Mathlib
import NaiveOs.Mm.MemorySet
import NaiveOs.Mm.PageTableRefine

/-!
# User address spaces and their copy (`mm/memory_set.rs`)

A user address space is a `MemorySet` whose areas are all `Framed`: every page of an area is
backed by a frame of its own, recorded in `data_frames`, and mapped with the area's permission;
the trampoline page is mapped to the trampoline code, outside every area. `UserWF` states this
as an invariant of the space in a machine, against `expected`, the mapping the space's own
records describe.

The operations are specified in the style of `PageTableRefine`:

- `mapOne_framed_spec`, `map_spec`, `push_spec`: mapping an area takes fresh frames from the
  allocator and maps each page of the range, and `push` of a `Framed` area on pages the space
  does not map keeps `UserWF` (`push_userWF`);
- `fromExistedUser_spec`: the copy `fork` makes. The new space has the areas of the old one in
  the same order, is itself `UserWF`, maps every page with the old flags to a frame holding the
  old frame's bytes, and is built from frames the allocator did not own before, so that it
  shares no frame with the old space (`Machine.Takes`).

A run that writes none of a space's frames leaves the space as it was (`UserWF.of_step`).
-/

namespace NaiveOs

open PageTable

/-- `VirtAddr::from(TRAMPOLINE)` as a page number: the last page of the Sv39 space. -/
def trampolineVpn : VirtPageNum := ⟨2 ^ 27 - 1⟩

theorem trampoline_ofVirtAddr :
    VirtPageNum.ofVirtAddr (VirtAddr.ofUsize trampoline) = .ok trampolineVpn := by
  decide

namespace MapArea

/-- What an area's records say it maps: each tracked page to its frame, with the area's
permission and `V`. -/
def mapping (a : MapArea) (vpn : VirtPageNum) : Option (PhysPageNum × PTEFlags) :=
  (a.dataFrames.lookup vpn).map fun f => (f, ⟨a.mapPerm.bits⟩ ||| PTEFlags.V)

/-- What `from_another` keeps of an area: its range, type and permission. -/
def shape (a : MapArea) : VPNRange × MapType × MapPermission :=
  (a.vpnRange, a.mapType, a.mapPerm)

/-- The data frames of an area. -/
def frames (a : MapArea) : List PhysPageNum := a.dataFrames.map Prod.snd

theorem mapping_eq_some {a : MapArea} {vpn : VirtPageNum} {f : PhysPageNum} {fl : PTEFlags}
    (h : a.mapping vpn = some (f, fl)) :
    a.dataFrames.lookup vpn = some f ∧ fl = ⟨a.mapPerm.bits⟩ ||| PTEFlags.V := by
  simp only [mapping, Option.map_eq_some_iff, Prod.mk.injEq] at h
  obtain ⟨g, hg, rfl, rfl⟩ := h
  exact ⟨hg, rfl⟩

theorem mapping_eq_none {a : MapArea} {vpn : VirtPageNum}
    (h : vpn ∉ a.dataFrames.map Prod.fst) : a.mapping vpn = none := by
  simp only [mapping, Option.map_eq_none_iff, List.lookup_eq_none_iff]
  intro p hp
  simp only [bne_iff_ne, ne_eq]
  rintro rfl
  exact h (List.mem_map_of_mem hp)

theorem mem_keys_of_mapping {a : MapArea} {vpn : VirtPageNum} (h : (a.mapping vpn).isSome) :
    vpn ∈ a.dataFrames.map Prod.fst := by
  rw [mapping, Option.isSome_map, List.lookup_isSome_iff] at h
  obtain ⟨p, hp, hv⟩ := h
  rw [beq_iff_eq] at hv
  exact List.mem_map.mpr ⟨p, hp, hv.symm⟩

/-- A tracked page is mapped with the area's permission. -/
theorem mapping_of_mem_keys {a : MapArea} {vpn : VirtPageNum}
    (h : vpn ∈ a.dataFrames.map Prod.fst) :
    ∃ f, a.mapping vpn = some (f, ⟨a.mapPerm.bits⟩ ||| PTEFlags.V) := by
  obtain ⟨p, hp, rfl⟩ := List.mem_map.mp h
  have hs : (a.dataFrames.lookup p.1).isSome :=
    List.lookup_isSome_iff.mpr ⟨p, hp, beq_self_eq_true _⟩
  obtain ⟨f, hf⟩ := Option.isSome_iff_exists.mp hs
  exact ⟨f, by simp [mapping, hf]⟩

/-- With its pages tracked once each, an area maps a tracked page to the frame tracked for it. -/
theorem mapping_of_mem {a : MapArea} (hnd : (a.dataFrames.map Prod.fst).Nodup)
    {vpn : VirtPageNum} {f : PhysPageNum} (h : (vpn, f) ∈ a.dataFrames) :
    a.mapping vpn = some (f, ⟨a.mapPerm.bits⟩ ||| PTEFlags.V) := by
  obtain ⟨g, hg⟩ := mapping_of_mem_keys (List.mem_map_of_mem (f := Prod.fst) h)
  obtain ⟨l₁, l₂, hsplit, -⟩ := List.lookup_eq_some_iff.mp (mapping_eq_some hg).1
  have hmem : (vpn, g) ∈ a.dataFrames := hsplit ▸ List.mem_append_right _ List.mem_cons_self
  -- the two pairs of the page are one, as the pages are distinct
  have hfg := List.inj_on_of_nodup_map hnd h hmem rfl
  rw [hg, (Prod.mk.inj hfg).2]

/-- Tracking one more page adds its mapping. -/
theorem mapping_append (a : MapArea) (vpn : VirtPageNum) (f : PhysPageNum) (v : VirtPageNum) :
    ({ a with dataFrames := a.dataFrames ++ [(vpn, f)] } : MapArea).mapping v =
      (a.mapping v).or (if v = vpn then some (f, ⟨a.mapPerm.bits⟩ ||| PTEFlags.V) else none) := by
  simp only [mapping, List.lookup_append]
  cases a.dataFrames.lookup v with
  | some g => rfl
  | none => by_cases h : v = vpn <;> simp [h]

end MapArea

namespace MemorySet

/-- The frames a space holds: its page table's, then each area's data frames. -/
def frames (ms : MemorySet) : List PhysPageNum :=
  ms.pageTable.frames ++ ms.areas.flatMap MapArea.frames

/-- The pages of a space's areas. -/
def pages (ms : MemorySet) : List VirtPageNum :=
  ms.areas.flatMap fun a => a.vpnRange.toList

/-- The mapping a user space's records describe: the trampoline page to the trampoline code
with `R | X | V`, and each area's tracked pages. -/
def expected (strampoline : Nat) (ms : MemorySet) (vpn : VirtPageNum) :
    Option (PhysPageNum × PTEFlags) :=
  if vpn = trampolineVpn then
    some (⟨strampoline / 4096⟩, PTEFlags.R ||| PTEFlags.X ||| PTEFlags.V)
  else ms.areas.findSome? (·.mapping vpn)

/-- The address-space invariant of a user space in a machine: the page table is valid and
maps exactly what the records describe; every area is `Framed`, lies below the trampoline and
tracks exactly its own pages; no two areas share a page; and the space's frames are distinct
and owned by the allocator. -/
structure UserWF (strampoline : Nat) (ms : MemorySet) (m : Machine) : Prop where
  valid : ms.pageTable.Valid m
  framed : ∀ a ∈ ms.areas, a.mapType = .framed
  below : ∀ a ∈ ms.areas, ∀ vpn ∈ a.vpnRange.toList, vpn.val < 2 ^ 27 - 1
  keys : ∀ a ∈ ms.areas, a.dataFrames.map Prod.fst = a.vpnRange.toList
  disjoint : ms.areas.Pairwise fun a b => ∀ vpn ∈ a.vpnRange.toList, vpn ∉ b.vpnRange.toList
  maps : ∀ vpn : VirtPageNum, vpn.val < 2 ^ 27 →
    lookup m.mem ms.pageTable.rootPpn vpn = ms.expected strampoline vpn
  owned : ∀ q ∈ ms.frames, m.frameAllocator.Owns q.val
  nodup : ms.frames.Nodup

section UserWF

variable {strampoline : Nat} {ms : MemorySet} {m : Machine}

theorem expected_trampoline (strampoline : Nat) (ms : MemorySet) :
    ms.expected strampoline trampolineVpn =
      some (⟨strampoline / 4096⟩, PTEFlags.R ||| PTEFlags.X ||| PTEFlags.V) := by
  simp [expected]

theorem expected_of_ne {vpn : VirtPageNum} (h : vpn ≠ trampolineVpn) :
    ms.expected strampoline vpn = ms.areas.findSome? (·.mapping vpn) := by
  simp [expected, h]

/-- A page of an area is mapped to the frame the area tracks for it, with the area's
permission. -/
theorem UserWF.expected_of_mem (hwf : ms.UserWF strampoline m) {a : MapArea} (ha : a ∈ ms.areas)
    {vpn : VirtPageNum} (hv : vpn ∈ a.vpnRange.toList) :
    ∃ f, (vpn, f) ∈ a.dataFrames ∧
      ms.expected strampoline vpn = some (f, ⟨a.mapPerm.bits⟩ ||| PTEFlags.V) := by
  have hne : vpn ≠ trampolineVpn := by
    rintro rfl
    have := hwf.below a ha _ hv
    simp [trampolineVpn] at this
  -- the area tracks the page, and no area before it does
  have hkey : vpn ∈ a.dataFrames.map Prod.fst := (hwf.keys a ha).symm ▸ hv
  have hsome : (a.dataFrames.lookup vpn).isSome := by
    obtain ⟨⟨v, f⟩, hp, rfl⟩ := List.mem_map.mp hkey
    exact List.lookup_isSome_iff.mpr ⟨(v, f), hp, by simp⟩
  obtain ⟨f, hf⟩ := Option.isSome_iff_exists.mp hsome
  obtain ⟨l₁, l₂, hsplit, -⟩ := List.lookup_eq_some_iff.mp hf
  refine ⟨f, hsplit ▸ List.mem_append_right _ List.mem_cons_self, ?_⟩
  obtain ⟨pre, post, hsplit⟩ := List.append_of_mem ha
  have hdis := hwf.disjoint
  rw [hsplit] at hdis
  have hpre : ∀ b ∈ pre, b.mapping vpn = none := by
    intro b hb
    refine MapArea.mapping_eq_none fun hb' => ?_
    rw [hwf.keys b (hsplit ▸ List.mem_append_left _ hb)] at hb'
    exact (List.pairwise_append.mp hdis).2.2 b hb a List.mem_cons_self vpn hb' hv
  rw [expected_of_ne hne, hsplit, List.findSome?_append, List.findSome?_eq_none_iff.mpr hpre,
    Option.none_or, List.findSome?_cons]
  simp [MapArea.mapping, hf]

/-- A page outside every area, other than the trampoline's, is not mapped. -/
theorem expected_of_not_mem {vpn : VirtPageNum} (hne : vpn ≠ trampolineVpn)
    (hkeys : ∀ a ∈ ms.areas, vpn ∉ a.dataFrames.map Prod.fst) :
    ms.expected strampoline vpn = none := by
  rw [expected_of_ne hne, List.findSome?_eq_none_iff]
  intro a ha
  exact MapArea.mapping_eq_none (hkeys a ha)

/-- What a space maps outside the trampoline is a frame one of its areas tracks. -/
theorem expected_eq_some {vpn : VirtPageNum} {f : PhysPageNum} {fl : PTEFlags}
    (hne : vpn ≠ trampolineVpn) (h : ms.expected strampoline vpn = some (f, fl)) :
    ∃ a ∈ ms.areas, (vpn, f) ∈ a.dataFrames ∧ fl = ⟨a.mapPerm.bits⟩ ||| PTEFlags.V := by
  rw [expected_of_ne hne, List.findSome?_eq_some_iff] at h
  obtain ⟨l₁, a, l₂, hsplit, ha, -⟩ := h
  obtain ⟨hl, hfl⟩ := MapArea.mapping_eq_some ha
  obtain ⟨p₁, p₂, hdf, -⟩ := List.lookup_eq_some_iff.mp hl
  exact ⟨a, hsplit ▸ List.mem_append_right _ List.mem_cons_self,
    hdf ▸ List.mem_append_right _ List.mem_cons_self, hfl⟩

/-- Distinct pages of a space are backed by distinct frames. -/
theorem UserWF.frame_inj (hwf : ms.UserWF strampoline m) {a b : MapArea} (ha : a ∈ ms.areas)
    (hb : b ∈ ms.areas) {v w : VirtPageNum} {f : PhysPageNum} (hv : (v, f) ∈ a.dataFrames)
    (hw : (w, f) ∈ b.dataFrames) : v = w := by
  -- the pairs of all areas, whose second components are the areas' frames
  have hnd : ((ms.areas.flatMap MapArea.dataFrames).map Prod.snd).Nodup := by
    rw [List.map_flatMap]
    exact hwf.nodup.of_append_right
  have := List.inj_on_of_nodup_map hnd (List.mem_flatMap.mpr ⟨a, ha, hv⟩)
    (List.mem_flatMap.mpr ⟨b, hb, hw⟩) rfl
  exact (Prod.mk.inj this).1

theorem mem_frames_of_mem {a : MapArea} (ha : a ∈ ms.areas) {v : VirtPageNum} {f : PhysPageNum}
    (hv : (v, f) ∈ a.dataFrames) : f ∈ ms.frames :=
  List.mem_append_right _ (List.mem_flatMap.mpr ⟨a, ha, List.mem_map_of_mem (f := Prod.snd) hv⟩)

/-- A run that frees nothing and writes none of the page table's frames keeps a user space
and what it maps. -/
theorem UserWF.of_step (hwf : ms.UserWF strampoline m) {m' : Machine} {W : List PhysPageNum}
    (hs : Machine.Step W m m') (hW : ∀ q ∈ W, q ∉ ms.pageTable.frames)
    (hinv : m'.frameAllocator.Inv) :
    ms.UserWF strampoline m' ∧
      ∀ vpn, lookup m'.mem ms.pageTable.rootPpn vpn = lookup m.mem ms.pageTable.rootPpn vpn := by
  obtain ⟨hv, hl⟩ := hwf.valid.of_step hs hW hinv
  refine ⟨{ hwf with
    valid := hv
    maps := fun vpn hvpn => (hl vpn).trans (hwf.maps vpn hvpn)
    owned := fun q hq => hs.owns _ (hwf.owned q hq) }, hl⟩

/-- A page other than the trampoline's that a user space maps lies in an area, which tracks the
frame the page is mapped to. -/
theorem UserWF.area_of_lookup (hwf : ms.UserWF strampoline m) {vpn : VirtPageNum}
    (hlt : vpn.val < 2 ^ 27) (hne : vpn ≠ trampolineVpn) {f : PhysPageNum} {fl : PTEFlags}
    (h : lookup m.mem ms.pageTable.rootPpn vpn = some (f, fl)) :
    ∃ a ∈ ms.areas, (vpn, f) ∈ a.dataFrames ∧ fl = ⟨a.mapPerm.bits⟩ ||| PTEFlags.V :=
  expected_eq_some hne ((hwf.maps vpn hlt).symm.trans h)

/-- Two pages other than the trampoline's that a user space maps to one frame are one page. -/
theorem UserWF.lookup_inj (hwf : ms.UserWF strampoline m) {v w : VirtPageNum}
    (hv : v.val < 2 ^ 27) (hw : w.val < 2 ^ 27) (hvt : v ≠ trampolineVpn)
    (hwt : w ≠ trampolineVpn) {f : PhysPageNum} {fl fl' : PTEFlags}
    (h₁ : lookup m.mem ms.pageTable.rootPpn v = some (f, fl))
    (h₂ : lookup m.mem ms.pageTable.rootPpn w = some (f, fl')) : v = w := by
  obtain ⟨a, ha, hva, -⟩ := hwf.area_of_lookup hv hvt h₁
  obtain ⟨b, hb, hwb, -⟩ := hwf.area_of_lookup hw hwt h₂
  exact hwf.frame_inj ha hb hva hwb

/-- Giving back frames that are not the space's, and writing nothing, keeps a user space. -/
theorem UserWF.of_mem_eq (hwf : ms.UserWF strampoline m) {m' : Machine} (hmem : m'.mem = m.mem)
    (hinv : m'.frameAllocator.Inv) (hown : ∀ q ∈ ms.frames, m'.frameAllocator.Owns q.val) :
    ms.UserWF strampoline m' :=
  { hwf with
    valid := ⟨hmem ▸ hwf.valid.tree, fun p hp => hown p (List.mem_append_left _ hp),
      hwf.valid.nodup, hinv⟩
    maps := fun vpn hvpn => hmem ▸ hwf.maps vpn hvpn
    owned := hown }

end UserWF

end MemorySet

/-! ## Mapping an area -/

namespace MapArea

/-- `map_one` of a `Framed` area on a page it does not track yet: a frame is allocated,
tracked and mapped; no older frame is replaced, so none is deallocated. -/
theorem mapOne_framed_eq {area : MapArea} (hframed : area.mapType = .framed) {vpn : VirtPageNum}
    (hnew : area.dataFrames.lookup vpn = none) (pt : PageTable) :
    area.mapOne pt vpn = (do
      let frame ← unwrap (← frameAlloc)
      let pt ← pt.map vpn frame ⟨area.mapPerm.bits⟩
      pure ({ area with dataFrames := area.dataFrames ++ [(vpn, frame)] }, pt)) := by
  simp [mapOne, hframed, insertFrame, hnew]

/-- A run of `map_one` of a `Framed` area on a page it does not track that returns found the
page unmapped, and tracks and maps it to a fresh zeroed frame, as `mapOne_framed_spec` says. -/
theorem mapOne_framed_ok {area : MapArea} {pt : PageTable} {m : Machine} (hv : pt.Valid m)
    (hframed : area.mapType = .framed) {vpn : VirtPageNum} (hvpn : vpn.val < 2 ^ 27)
    (hnew : area.dataFrames.lookup vpn = none) {a' : MapArea} {pt' : PageTable} {m' : Machine}
    (h : (area.mapOne pt vpn).run m = .ok ((a', pt'), m')) :
    ∃ f P, a' = { area with dataFrames := area.dataFrames ++ [(vpn, f)] } ∧
      lookup m.mem pt.rootPpn vpn = none ∧ pt'.Valid m' ∧ pt'.rootPpn = pt.rootPpn ∧
      pt'.frames = pt.frames ++ P ∧ Machine.Takes pt.frames (f :: P) m m' ∧
      (∀ v, v.val < 2 ^ 27 → lookup m'.mem pt.rootPpn v =
        Function.update (lookup m.mem pt.rootPpn) vpn
          (some (f, ⟨area.mapPerm.bits⟩ ||| PTEFlags.V)) v) ∧
      m.frameAllocator.free ≤ m'.frameAllocator.free + 3 ∧
      ∀ o < 4096, m'.mem (f.val * 4096 + o) = 0 := by
  rw [mapOne_framed_eq hframed hnew] at h
  obtain ⟨o, m₁, h₁, h⟩ := StateT.run_bind_eq_ok h
  obtain ⟨f, m₂, h₂, h⟩ := StateT.run_bind_eq_ok h
  -- the allocation returned a frame, or `unwrap` would have panicked
  rcases frameAlloc_spec hv.alloc with ⟨hnone, -, -⟩ |
    ⟨g, fa', hrun, hflt, hno, hyes, hoth, hinv, hcount⟩
  · rw [hnone] at h₁
    cases h₁
    cases h₂
  rw [hrun] at h₁
  cases h₁
  cases h₂
  obtain ⟨pt₃, m₃, h₃, h⟩ := StateT.run_bind_eq_ok h
  cases h
  have ht₁ := Machine.takes_fill hflt hno hyes hoth
  -- the zeroed frame is none of the table's, so the table and its mapping survive
  have hfT : f ∉ pt.frames := hv.fresh hno
  obtain ⟨hv₁, hl₁⟩ := hv.of_step ht₁.step (fun q hq => by
    simp only [List.nil_append, List.mem_singleton] at hq
    exact hq ▸ hfT) hinv
  obtain ⟨hun, hv', hr', hl', hf', hg'⟩ := PageTable.map_ok hv₁ hvpn hflt h₃
  obtain ⟨P, hP, ht₂⟩ := hg'.takes hv'
  -- `map` writes only table frames, and the data frame is none of them
  have hfP : ∀ w ∈ pt'.frames, w.val ≠ f.val := by
    intro w hw heq
    have hwf : w = f := by cases w; cases f; simp_all
    rcases hg'.fresh w hw with hw' | hw'
    · exact hfT (hwf ▸ hw')
    · exact hw' (hwf ▸ hyes)
  refine ⟨f, P, rfl, (hl₁ vpn).symm.trans hun, hv', hr', hP,
    (ht₁.mono fun q hq => absurd hq List.not_mem_nil).trans ht₂ fun q hq => .inl hq,
    fun v hv => ?_, by dsimp only at hf'; omega, fun o ho => ?_⟩
  · rw [hl' v hv, show lookup _ pt.rootPpn = lookup m.mem pt.rootPpn from funext hl₁]
  · rw [hg'.step.frame_eq hfP ho]
    show m.mem.fill f.base pageSize 0 (f.val * 4096 + o) = 0
    rw [PhysPageNum.base_eq hflt]
    exact ByteMem.fill_apply_inside _ _ _ _ (by simpa [pageSize] using ho)

/-- `map_one` of a `Framed` area on a page the table does not map: one fresh frame is tracked
and mapped with the area's permission, and the table takes at most two more. -/
theorem mapOne_framed_spec {area : MapArea} {pt : PageTable} {m : Machine} (hv : pt.Valid m)
    (hframed : area.mapType = .framed) {vpn : VirtPageNum} (hvpn : vpn.val < 2 ^ 27)
    (hnew : area.dataFrames.lookup vpn = none) (hun : lookup m.mem pt.rootPpn vpn = none)
    (hfree : 3 ≤ m.frameAllocator.free) :
    ∃ f pt' m' P, (area.mapOne pt vpn).run m =
        .ok (({ area with dataFrames := area.dataFrames ++ [(vpn, f)] }, pt'), m') ∧
      pt'.Valid m' ∧ pt'.rootPpn = pt.rootPpn ∧ pt'.frames = pt.frames ++ P ∧
      Machine.Takes pt.frames (f :: P) m m' ∧
      (∀ v, v.val < 2 ^ 27 → lookup m'.mem pt.rootPpn v =
        Function.update (lookup m.mem pt.rootPpn) vpn
          (some (f, ⟨area.mapPerm.bits⟩ ||| PTEFlags.V)) v) ∧
      m.frameAllocator.free ≤ m'.frameAllocator.free + 3 := by
  obtain ⟨f, fa', hrun, hflt, hno, hyes, hoth, hinv, hcount⟩ := frameAlloc_some hv.alloc (by omega)
  have ht1 := Machine.takes_fill hflt hno hyes hoth
  -- the zeroed frame is none of the table's, so the table and its mapping survive
  obtain ⟨hv1, hl1⟩ := hv.of_step ht1.step (fun q hq => by
    simp only [List.nil_append, List.mem_singleton] at hq
    exact hq ▸ hv.fresh hno) hinv
  -- the table can take the page, so the run returns, and `mapOne_framed_ok` says what it did
  obtain ⟨pt', m', h2, -⟩ := PageTable.map_spec hv1 ⟨area.mapPerm.bits⟩
    hvpn hflt ((hl1 vpn).trans hun) (by dsimp only; omega)
  have hrun' : (area.mapOne pt vpn).run m =
      .ok (({ area with dataFrames := area.dataFrames ++ [(vpn, f)] }, pt'), m') := by
    simp [mapOne_framed_eq hframed hnew, hrun, unwrap, h2]
  obtain ⟨g, P, hg, -, hv', hr', hP, ht, hl, hf, -⟩ := mapOne_framed_ok hv hframed hvpn hnew hrun'
  have hfg : f = g := by simpa using hg
  subst hfg
  exact ⟨f, pt', m', P, hrun', hv', hr', hP, ht, hl, hf⟩

/-- The state of `MapArea::map` on `area` and `pt` from `m`, after the pages `done`: the area
tracks `D` for them, the table grew by `Q`, and each page of `done` is mapped to its frame. -/
structure MapInv (area : MapArea) (pt : PageTable) (m : Machine) (done : List VirtPageNum)
    (D : List (VirtPageNum × PhysPageNum)) (Q : List PhysPageNum) (pt' : PageTable)
    (m' : Machine) : Prop where
  keys : D.map Prod.fst = done
  valid : pt'.Valid m'
  root : pt'.rootPpn = pt.rootPpn
  frames : pt'.frames = pt.frames ++ Q
  takes : Machine.Takes pt.frames (D.map Prod.snd ++ Q) m m'
  maps : ∀ v, v.val < 2 ^ 27 → lookup m'.mem pt.rootPpn v =
    (({ area with dataFrames := D } : MapArea).mapping v).or (lookup m.mem pt.rootPpn v)
  free : m.frameAllocator.free ≤ m'.frameAllocator.free + 3 * done.length

theorem MapInv.init (area : MapArea) {pt : PageTable} {m : Machine} (hv : pt.Valid m) :
    MapInv area pt m [] [] [] pt m where
  keys := rfl
  valid := hv
  root := rfl
  frames := (List.append_nil _).symm
  takes := Machine.Takes.refl _ _
  maps v _ := by simp [mapping]
  free := by omega

/-- The invariant of `MapArea::map` after one more page, from what `map_one` did on it. -/
theorem MapInv.extend {area : MapArea} {pt pt₁ : PageTable} {m m₁ : Machine}
    {done : List VirtPageNum} {D : List (VirtPageNum × PhysPageNum)} {Q : List PhysPageNum}
    (hi : MapInv area pt m done D Q pt₁ m₁) {vpn : VirtPageNum} (hnew : vpn ∉ done)
    {f : PhysPageNum} {pt₂ : PageTable}
    {m₂ : Machine} {P : List PhysPageNum} (hv₂ : pt₂.Valid m₂) (hr₂ : pt₂.rootPpn = pt₁.rootPpn)
    (hP : pt₂.frames = pt₁.frames ++ P) (ht : Machine.Takes pt₁.frames (f :: P) m₁ m₂)
    (hl : ∀ v, v.val < 2 ^ 27 → lookup m₂.mem pt₁.rootPpn v =
      Function.update (lookup m₁.mem pt₁.rootPpn) vpn
        (some (f, ⟨area.mapPerm.bits⟩ ||| PTEFlags.V)) v)
    (hf : m₁.frameAllocator.free ≤ m₂.frameAllocator.free + 3) :
    MapInv area pt m (done ++ [vpn]) (D ++ [(vpn, f)]) (Q ++ P) pt₂ m₂ := by
  have hnone : ({ area with dataFrames := D } : MapArea).mapping vpn = none :=
    mapping_eq_none (hi.keys ▸ hnew)
  refine ⟨by simp [hi.keys], hv₂, hr₂.trans hi.root, ?_, ?_, ?_, ?_⟩
  · rw [hP, hi.frames, List.append_assoc]
  · -- the frames taken before, then the data frame and the new tables
    have hall := hi.takes.trans (hi.frames ▸ ht) fun q hq => by
      rcases List.mem_append.mp hq with hq | hq
      · exact .inl hq
      · exact .inr (List.mem_append_right _ hq)
    refine hall.perm ?_
    open List in calc (D.map Prod.snd ++ Q) ++ f :: P
      _ = D.map Prod.snd ++ (Q ++ f :: P) := List.append_assoc _ _ _
      _ ~ D.map Prod.snd ++ (f :: (Q ++ P)) := List.Perm.append_left _ List.perm_middle
      _ = (D ++ [(vpn, f)]).map Prod.snd ++ (Q ++ P) := by simp
  · intro v hv
    have happ := mapping_append ({ area with dataFrames := D } : MapArea) vpn f v
    dsimp only at happ
    rw [← hi.root, hl v hv, hi.root, happ, Function.update_apply]
    split_ifs with hvv
    · subst hvv
      simp [hnone]
    · rw [hi.maps v hv, Option.or_none]
  · have := hi.free
    simp only [List.length_append, List.length_singleton]
    omega

/-- One page of the loop of `MapArea::map`. -/
theorem MapInv.step {area : MapArea} {pt pt₁ : PageTable} {m m₁ : Machine}
    {done : List VirtPageNum} {D : List (VirtPageNum × PhysPageNum)} {Q : List PhysPageNum}
    (hi : MapInv area pt m done D Q pt₁ m₁) (hframed : area.mapType = .framed)
    {vpn : VirtPageNum} (hvpn : vpn.val < 2 ^ 27) (hnew : vpn ∉ done)
    (hun : lookup m.mem pt.rootPpn vpn = none) (hfree : 3 ≤ m₁.frameAllocator.free) :
    ∃ f pt₂ m₂ P, (({ area with dataFrames := D } : MapArea).mapOne pt₁ vpn).run m₁ =
        .ok (({ area with dataFrames := D ++ [(vpn, f)] }, pt₂), m₂) ∧
      MapInv area pt m (done ++ [vpn]) (D ++ [(vpn, f)]) (Q ++ P) pt₂ m₂ := by
  have hnone : ({ area with dataFrames := D } : MapArea).mapping vpn = none :=
    mapping_eq_none (hi.keys ▸ hnew)
  have hun₁ : lookup m₁.mem pt₁.rootPpn vpn = none := by
    rw [hi.root, hi.maps vpn hvpn, hnone, hun]
    rfl
  obtain ⟨f, pt₂, m₂, P, hrun, hv₂, hr₂, hP, ht, hl, hf⟩ :=
    mapOne_framed_spec hi.valid
      (show ({ area with dataFrames := D } : MapArea).mapType = .framed from hframed) hvpn
      (List.lookup_eq_none_iff.mpr fun p hp => by
        simp only [bne_iff_ne, ne_eq]
        rintro rfl
        exact hnew (hi.keys ▸ List.mem_map_of_mem hp)) hun₁ hfree
  exact ⟨f, pt₂, m₂, P, hrun, hi.extend hnew hv₂ hr₂ hP ht hl hf⟩

/-- A page of `MapArea::map` whose run returns: the page was unmapped and is now tracked and
mapped to a fresh zeroed frame. -/
theorem MapInv.step_ok {area : MapArea} {pt pt₁ : PageTable} {m m₁ : Machine}
    {done : List VirtPageNum} {D : List (VirtPageNum × PhysPageNum)} {Q : List PhysPageNum}
    (hi : MapInv area pt m done D Q pt₁ m₁) (hframed : area.mapType = .framed)
    {vpn : VirtPageNum} (hvpn : vpn.val < 2 ^ 27) (hnew : vpn ∉ done) {a₂ : MapArea}
    {pt₂ : PageTable} {m₂ : Machine}
    (h : (({ area with dataFrames := D } : MapArea).mapOne pt₁ vpn).run m₁ = .ok ((a₂, pt₂), m₂)) :
    ∃ f P, a₂ = { area with dataFrames := D ++ [(vpn, f)] } ∧
      lookup m.mem pt.rootPpn vpn = none ∧
      MapInv area pt m (done ++ [vpn]) (D ++ [(vpn, f)]) (Q ++ P) pt₂ m₂ ∧
      Machine.Takes pt₁.frames (f :: P) m₁ m₂ ∧ ∀ o < 4096, m₂.mem (f.val * 4096 + o) = 0 := by
  have hnone : ({ area with dataFrames := D } : MapArea).mapping vpn = none :=
    mapping_eq_none (hi.keys ▸ hnew)
  obtain ⟨f, P, ha, hun₁, hv₂, hr₂, hP, ht, hl, hf, hz⟩ :=
    mapOne_framed_ok hi.valid
      (show ({ area with dataFrames := D } : MapArea).mapType = .framed from hframed) hvpn
      (List.lookup_eq_none_iff.mpr fun p hp => by
        simp only [bne_iff_ne, ne_eq]
        rintro rfl
        exact hnew (hi.keys ▸ List.mem_map_of_mem hp)) h
  -- the page was unmapped before the loop too: the pages mapped since are those of `done`
  have hun : lookup m.mem pt.rootPpn vpn = none := by
    rw [hi.root, hi.maps vpn hvpn, hnone] at hun₁
    exact hun₁
  exact ⟨f, P, ha, hun, hi.extend hnew hv₂ hr₂ hP ht hl hf, ht, hz⟩

/-- A frame `map` tracked is none of the table's: it was free when the table's own were not. -/
theorem MapInv.not_mem_frames {area : MapArea} {pt pt' : PageTable} {m m' : Machine}
    {done : List VirtPageNum} {D : List (VirtPageNum × PhysPageNum)} {Q : List PhysPageNum}
    (hi : MapInv area pt m done D Q pt' m') (hv : pt.Valid m) {p : VirtPageNum × PhysPageNum}
    (hp : p ∈ D) : p.2 ∉ pt'.frames := by
  have hq : p.2 ∈ D.map Prod.snd ++ Q := List.mem_append_left _ (List.mem_map_of_mem hp)
  rw [hi.frames]
  intro hT
  rcases List.mem_append.mp hT with hT | hT
  · exact hi.takes.fresh _ hq (hv.owned _ hT)
  · exact List.disjoint_of_nodup_append hi.takes.nodup (List.mem_map_of_mem hp) hT

/-- `MapArea::map` of a `Framed` area that tracks nothing yet, on pages the table does not map:
every page of the range gets a fresh frame, tracked and mapped with the area's permission. -/
theorem map_spec {area : MapArea} {pt : PageTable} {m : Machine} (hv : pt.Valid m)
    (hframed : area.mapType = .framed) (hdf : area.dataFrames = [])
    (hlt : ∀ vpn ∈ area.vpnRange.toList, vpn.val < 2 ^ 27)
    (hun : ∀ vpn ∈ area.vpnRange.toList, lookup m.mem pt.rootPpn vpn = none)
    (hfree : 3 * area.vpnRange.toList.length ≤ m.frameAllocator.free) :
    ∃ D Q pt' m', (area.map pt).run m = .ok (({ area with dataFrames := D }, pt'), m') ∧
      MapInv area pt m area.vpnRange.toList D Q pt' m' := by
  -- the loop invariant: after the pages `done`, the accumulated area tracks `D`
  let I : List VirtPageNum → MapArea × PageTable → Machine → Prop := fun done acc m' =>
    ∃ D Q, acc.1 = { area with dataFrames := D } ∧ MapInv area pt m done D Q acc.2 m'
  have hloop := Triple.foldlM (f := fun (acc : MapArea × PageTable) vpn => acc.1.mapOne acc.2 vpn)
    I area.vpnRange.toList [] (area, pt) (by
      rintro done vpn rest ⟨a₁, pt₁⟩ hsplit m₁ ⟨D, Q, ha, hi⟩
      simp only [List.nil_append] at hsplit
      dsimp only at ha hi
      subst ha
      have hmem : vpn ∈ area.vpnRange.toList := hsplit ▸ List.mem_append_right _ List.mem_cons_self
      have hnew : vpn ∉ done := by
        have hnd := hsplit ▸ area.vpnRange.toList_nodup
        exact fun h => (List.nodup_append.mp hnd).2.2 vpn h vpn List.mem_cons_self rfl
      have hlen : done.length + 1 ≤ area.vpnRange.toList.length := by
        rw [hsplit]
        simp
      obtain ⟨f, pt₂, m₂, P, hrun, hi₂⟩ := hi.step hframed (hlt vpn hmem) hnew (hun vpn hmem)
        (by have := hi.free; omega)
      exact ⟨_, m₂, hrun, D ++ [(vpn, f)], Q ++ P, rfl, hi₂⟩)
  obtain ⟨⟨a', pt'⟩, m', hrun, D, Q, ha, hi⟩ := hloop m
    ⟨[], [], by cases area; simp_all, MapInv.init area hv⟩
  dsimp only at ha hi
  subst ha
  exact ⟨D, Q, pt', m', hrun, hi⟩

/-- A run of `MapArea::map` of a `Framed` area that tracks nothing yet that returns found every
page of the range unmapped, and maps each to a fresh zeroed frame, as `map_spec` says. -/
theorem map_ok {area : MapArea} {pt : PageTable} {m : Machine} (hv : pt.Valid m)
    (hframed : area.mapType = .framed) (hdf : area.dataFrames = [])
    (hlt : ∀ vpn ∈ area.vpnRange.toList, vpn.val < 2 ^ 27) {a' : MapArea} {pt' : PageTable}
    {m' : Machine} (h : (area.map pt).run m = .ok ((a', pt'), m')) :
    ∃ D Q, a' = { area with dataFrames := D } ∧
      MapInv area pt m area.vpnRange.toList D Q pt' m' ∧
      (∀ vpn ∈ area.vpnRange.toList, lookup m.mem pt.rootPpn vpn = none) ∧
      ∀ p ∈ D, ∀ o < 4096, m'.mem (p.2.val * 4096 + o) = 0 := by
  -- the loop invariant of `map_spec`, with the pages found unmapped and the frames zeroed
  let I : List VirtPageNum → MapArea × PageTable → Machine → Prop := fun done acc m₁ =>
    ∃ D Q, acc.1 = { area with dataFrames := D } ∧ MapInv area pt m done D Q acc.2 m₁ ∧
      (∀ vpn ∈ done, lookup m.mem pt.rootPpn vpn = none) ∧
      ∀ p ∈ D, ∀ o < 4096, m₁.mem (p.2.val * 4096 + o) = 0
  have hloop := Returns.foldlM
    (f := fun (acc : MapArea × PageTable) vpn => acc.1.mapOne acc.2 vpn) I area.vpnRange.toList
    [] (area, pt) (by
      rintro done vpn rest ⟨a₁, pt₁⟩ hsplit m₁ ⟨a₂, pt₂⟩ m₂ ⟨D, Q, ha, hi, hun, hz⟩ hrun
      simp only [List.nil_append] at hsplit
      dsimp only at ha hi hrun
      subst ha
      have hmem : vpn ∈ area.vpnRange.toList := hsplit ▸ List.mem_append_right _ List.mem_cons_self
      have hnew : vpn ∉ done := by
        have hnd := hsplit ▸ area.vpnRange.toList_nodup
        exact fun h => (List.nodup_append.mp hnd).2.2 vpn h vpn List.mem_cons_self rfl
      obtain ⟨f, P, ha₂, hun₂, hi₂, ht, hz₂⟩ := hi.step_ok hframed (hlt vpn hmem) hnew hrun
      refine ⟨D ++ [(vpn, f)], Q ++ P, ha₂, hi₂, fun v hv => ?_, fun p hp o ho => ?_⟩
      · rcases List.mem_append.mp hv with hv | hv
        · exact hun v hv
        · rw [List.mem_singleton] at hv
          exact hv ▸ hun₂
      · rcases List.mem_append.mp hp with hp | hp
        · -- an earlier frame is owned and none of the table's, so `map_one` did not write it
          have hq : p.2 ∈ D.map Prod.snd ++ Q := List.mem_append_left _ (List.mem_map_of_mem hp)
          rw [ht.frame_eq (hi.takes.owned _ hq) (hi.not_mem_frames hv hp) ho]
          exact hz p hp o ho
        · rw [List.mem_singleton] at hp
          exact hp ▸ hz₂ o ho)
  obtain ⟨D, Q, ha, hi, hun, hz⟩ := hloop m (a', pt') m'
    ⟨[], [], by cases area; simp_all, MapInv.init area hv, by simp, by simp⟩ h
  rw [List.nil_append] at hi hun
  exact ⟨D, Q, ha, hi, hun, hz⟩

end MapArea

namespace MemorySet

/-- `push` without data: the area is mapped and recorded. -/
theorem push_none_eq (ms : MemorySet) (area : MapArea) :
    ms.push area none = (area.map ms.pageTable >>= fun r => pure ⟨r.2, ms.areas ++ [r.1]⟩) := by
  simp [push]

/-- A page below the trampoline's that no area of a user space has is not mapped. -/
theorem UserWF.lookup_eq_none {strampoline : Nat} {ms : MemorySet} {m : Machine}
    (hwf : ms.UserWF strampoline m) {vpn : VirtPageNum}
    (hbelow : vpn.val < 2 ^ 27 - 1) (hnew : vpn ∉ ms.pages) :
    lookup m.mem ms.pageTable.rootPpn vpn = none := by
  have hne : vpn ≠ trampolineVpn := by
    rintro rfl
    simp [trampolineVpn] at hbelow
  refine (hwf.maps vpn (by omega)).trans (expected_of_not_mem hne fun b hb hk => ?_)
  rw [hwf.keys b hb] at hk
  exact hnew (List.mem_flatMap.mpr ⟨b, hb, hk⟩)

/-- A page below `2 ^ 27` that a user space does not map is neither the trampoline's nor in an
area. -/
theorem UserWF.new_of_lookup_eq_none {strampoline : Nat} {ms : MemorySet} {m : Machine}
    (hwf : ms.UserWF strampoline m) {vpn : VirtPageNum}
    (hlt : vpn.val < 2 ^ 27) (h : lookup m.mem ms.pageTable.rootPpn vpn = none) :
    vpn.val < 2 ^ 27 - 1 ∧ vpn ∉ ms.pages := by
  rw [hwf.maps vpn hlt] at h
  refine ⟨?_, fun hp => ?_⟩
  · have hne : vpn ≠ trampolineVpn := by
      rintro rfl
      rw [expected_trampoline] at h
      cases h
    have : vpn.val ≠ 2 ^ 27 - 1 := fun heq => hne (by cases vpn; simp_all [trampolineVpn])
    omega
  · obtain ⟨a, ha, hv⟩ := List.mem_flatMap.mp hp
    obtain ⟨f, -, he⟩ := hwf.expected_of_mem ha hv
    rw [he] at h
    cases h

/-- The space `push` records once `map` has mapped a new area of a user space: the area comes
last, tracking the frames `map` took for it. It is a user space again, whose frames are the old
ones and those `map` took. -/
theorem UserWF.push_of_mapInv {strampoline : Nat} {ms : MemorySet} {m : Machine}
    (hwf : ms.UserWF strampoline m) {area : MapArea}
    (hframed : area.mapType = .framed)
    (hbelow : ∀ vpn ∈ area.vpnRange.toList, vpn.val < 2 ^ 27 - 1)
    (hnew : ∀ vpn ∈ area.vpnRange.toList, vpn ∉ ms.pages) {D : List (VirtPageNum × PhysPageNum)}
    {Q : List PhysPageNum} {pt' : PageTable} {m' : Machine}
    (hi : MapArea.MapInv area ms.pageTable m area.vpnRange.toList D Q pt' m') :
    (⟨pt', ms.areas ++ [{ area with dataFrames := D }]⟩ : MemorySet).UserWF strampoline m' ∧
      (MemorySet.frames ⟨pt', ms.areas ++ [{ area with dataFrames := D }]⟩).Perm
        (ms.frames ++ (D.map Prod.snd ++ Q)) := by
  have hne : ∀ vpn ∈ area.vpnRange.toList, vpn ≠ trampolineVpn := by
    rintro vpn hv rfl
    have := hbelow _ hv
    simp [trampolineVpn] at this
  have hkeys : ∀ vpn ∈ area.vpnRange.toList, ∀ b ∈ ms.areas, vpn ∉ b.dataFrames.map Prod.fst := by
    intro vpn hv b hb hk
    rw [hwf.keys b hb] at hk
    exact hnew vpn hv (List.mem_flatMap.mpr ⟨b, hb, hk⟩)
  set a' : MapArea := { area with dataFrames := D } with ha'
  have hperm : (MemorySet.frames ⟨pt', ms.areas ++ [a']⟩).Perm
      (ms.frames ++ (D.map Prod.snd ++ Q)) :=
    List.perm_iff_count.mpr fun x => by
      simp only [frames, hi.frames, List.flatMap_append, List.flatMap_singleton, MapArea.frames,
        List.count_append, ha']
      omega
  -- a page of the new area is in no old area, and the other way round
  have hsep : ∀ v ∈ a'.dataFrames.map Prod.fst, ms.areas.findSome? (·.mapping v) = none := by
    intro v hv
    rw [hi.keys] at hv
    exact List.findSome?_eq_none_iff.mpr fun b hb => MapArea.mapping_eq_none (hkeys v hv b hb)
  refine ⟨⟨hi.valid, ?_, ?_, ?_, ?_, ?_, ?_, ?_⟩, hperm⟩
  · intro a ha
    rcases List.mem_append.mp ha with ha | ha
    · exact hwf.framed a ha
    · rw [List.mem_singleton] at ha
      exact ha ▸ hframed
  · intro a ha
    rcases List.mem_append.mp ha with ha | ha
    · exact hwf.below a ha
    · rw [List.mem_singleton] at ha
      exact ha ▸ hbelow
  · intro a ha
    rcases List.mem_append.mp ha with ha | ha
    · exact hwf.keys a ha
    · rw [List.mem_singleton] at ha
      exact ha ▸ hi.keys
  · refine List.pairwise_append.mpr ⟨hwf.disjoint, List.pairwise_singleton _ _, ?_⟩
    intro b hb a ha vpn hvb hva
    rw [List.mem_singleton] at ha
    subst ha
    exact hnew vpn hva (List.mem_flatMap.mpr ⟨b, hb, hvb⟩)
  · intro v hv
    show lookup m'.mem pt'.rootPpn v = _
    rw [hi.root, hi.maps v hv, hwf.maps v hv]
    by_cases ht : v = trampolineVpn
    · -- the trampoline page is in no area
      subst ht
      have hnone : a'.mapping trampolineVpn = none :=
        MapArea.mapping_eq_none fun h => hne _ (hi.keys ▸ h) rfl
      rw [hnone, Option.none_or, expected_trampoline, expected_trampoline]
    · rw [expected_of_ne ht, expected_of_ne ht, List.findSome?_append, List.findSome?_singleton]
      cases hm : a'.mapping v with
      | none => simp
      | some x =>
        rw [hsep v (MapArea.mem_keys_of_mapping (by rw [hm]; rfl))]
        rfl
  · intro q hq
    rcases List.mem_append.mp (hperm.mem_iff.mp hq) with hq | hq
    · exact hi.takes.step.owns _ (hwf.owned q hq)
    · exact hi.takes.owned q hq
  · refine hperm.nodup_iff.mpr (List.nodup_append.mpr ⟨hwf.nodup, hi.takes.nodup, ?_⟩)
    rintro x hx y hy rfl
    exact hi.takes.fresh x hy (hwf.owned x hx)

/-- `push` of a `Framed` area that tracks nothing, on pages below the trampoline that no area
of a user space has: the pages are mapped to fresh frames, and the space stays a user space. -/
theorem push_userWF {strampoline : Nat} {ms : MemorySet} {m : Machine}
    (hwf : ms.UserWF strampoline m) {area : MapArea} (hframed : area.mapType = .framed)
    (hdf : area.dataFrames = []) (hbelow : ∀ vpn ∈ area.vpnRange.toList, vpn.val < 2 ^ 27 - 1)
    (hnew : ∀ vpn ∈ area.vpnRange.toList, vpn ∉ ms.pages)
    (hfree : 3 * area.vpnRange.toList.length ≤ m.frameAllocator.free) :
    ∃ D ms' m' F, (ms.push area none).run m = .ok (ms', m') ∧
      ms'.areas = ms.areas ++ [{ area with dataFrames := D }] ∧
      ms'.pageTable.rootPpn = ms.pageTable.rootPpn ∧ ms'.UserWF strampoline m' ∧
      ms'.frames.Perm (ms.frames ++ F) ∧ Machine.Takes ms.pageTable.frames F m m' ∧
      (∀ v, v.val < 2 ^ 27 → lookup m'.mem ms.pageTable.rootPpn v =
        (({ area with dataFrames := D } : MapArea).mapping v).or
          (lookup m.mem ms.pageTable.rootPpn v)) ∧
      m.frameAllocator.free ≤ m'.frameAllocator.free + 3 * area.vpnRange.toList.length := by
  -- the pages are new to the space, so the table does not map them
  obtain ⟨D, Q, pt', m', hrun, hi⟩ := MapArea.map_spec hwf.valid hframed hdf
    (fun v hv => by have := hbelow v hv; omega)
    (fun v hv => hwf.lookup_eq_none (hbelow v hv) (hnew v hv)) hfree
  obtain ⟨hwf', hperm⟩ := hwf.push_of_mapInv hframed hbelow hnew hi
  refine ⟨D, ⟨pt', ms.areas ++ [{ area with dataFrames := D }]⟩, m', D.map Prod.snd ++ Q, ?_, rfl,
    hi.root, hwf', hperm, hi.takes, hi.maps, hi.free⟩
  rw [push_none_eq, StateT.run_bind_of_ok hrun]
  rfl

/-- `insert_framed_area` of a range whose ends are in order pushes the area it builds. -/
theorem insertFramedArea_run (ms : MemorySet) {startVa endVa : VirtAddr} (perm : MapPermission)
    (hle : startVa.floor.val ≤ endVa.ceil.val) (m : Machine) :
    (ms.insertFramedArea startVa endVa perm).run m =
      (ms.push ⟨⟨startVa.floor, endVa.ceil, hle⟩, [], .framed, perm⟩ none).run m := by
  have hnew : MapArea.new startVa endVa .framed perm =
      .ok ⟨⟨startVa.floor, endVa.ceil, hle⟩, [], .framed, perm⟩ := by
    rw [MapArea.new, VPNRange.new, dif_pos hle]
    rfl
  have hlift : (liftM (MapArea.new startVa endVa .framed perm) : KernelM Machine MapArea).run m =
      .ok (⟨⟨startVa.floor, endVa.ceil, hle⟩, [], .framed, perm⟩, m) := by
    rw [hnew]
    rfl
  rw [insertFramedArea, StateT.run_bind_of_ok hlift]

/-- `insert_framed_area` on pages below `2 ^ 27` that the table does not map, in any space (the
kernel's too): the pages of the new area are mapped to fresh frames as `MapInv` says. -/
theorem insertFramedArea_spec {ms : MemorySet} {m : Machine} (hv : ms.pageTable.Valid m)
    {startVa endVa : VirtAddr} (perm : MapPermission) (hle : startVa.floor.val ≤ endVa.ceil.val)
    (hlt : endVa.ceil.val ≤ 2 ^ 27)
    (hun : ∀ vpn : VirtPageNum, startVa.floor.val ≤ vpn.val → vpn.val < endVa.ceil.val →
      lookup m.mem ms.pageTable.rootPpn vpn = none)
    (hfree : 3 * (endVa.ceil.val - startVa.floor.val) ≤ m.frameAllocator.free) :
    ∃ D Q ms' m', (ms.insertFramedArea startVa endVa perm).run m = .ok (ms', m') ∧
      ms'.areas = ms.areas ++ [⟨⟨startVa.floor, endVa.ceil, hle⟩, D, .framed, perm⟩] ∧
      MapArea.MapInv ⟨⟨startVa.floor, endVa.ceil, hle⟩, [], .framed, perm⟩ ms.pageTable m
        (VPNRange.toList ⟨startVa.floor, endVa.ceil, hle⟩) D Q ms'.pageTable m' := by
  have hframed : (⟨⟨startVa.floor, endVa.ceil, hle⟩, [], .framed, perm⟩ : MapArea).mapType =
    .framed := rfl
  obtain ⟨D, Q, pt', m', hrun, hi⟩ := MapArea.map_spec hv hframed rfl
    (fun v hv => by have := VPNRange.mem_toList.mp hv; dsimp only at this; omega)
    (fun v hv => hun v (VPNRange.mem_toList.mp hv).1 (VPNRange.mem_toList.mp hv).2)
    (by simpa [VPNRange.toList] using hfree)
  refine ⟨D, Q, ⟨pt', _⟩, m', ?_, rfl, hi⟩
  rw [insertFramedArea_run _ _ hle, push_none_eq]
  exact StateT.run_bind_of_ok hrun

/-- `insert_framed_area` on a user space, of pages below the trampoline's that no area has: the
space stays a user space, with the new area last. -/
theorem insertFramedArea_userWF {strampoline : Nat} {ms : MemorySet} {m : Machine}
    (hwf : ms.UserWF strampoline m) {startVa endVa : VirtAddr} (perm : MapPermission)
    (hle : startVa.floor.val ≤ endVa.ceil.val) (hbelow : endVa.ceil.val ≤ 2 ^ 27 - 1)
    (hnew : ∀ vpn : VirtPageNum, startVa.floor.val ≤ vpn.val → vpn.val < endVa.ceil.val →
      vpn ∉ ms.pages)
    (hfree : 3 * (endVa.ceil.val - startVa.floor.val) ≤ m.frameAllocator.free) :
    ∃ D ms' m' F, (ms.insertFramedArea startVa endVa perm).run m = .ok (ms', m') ∧
      ms'.areas = ms.areas ++ [⟨⟨startVa.floor, endVa.ceil, hle⟩, D, .framed, perm⟩] ∧
      ms'.UserWF strampoline m' ∧ ms'.frames.Perm (ms.frames ++ F) ∧
      Machine.Takes ms.pageTable.frames F m m' ∧
      m.frameAllocator.free ≤
        m'.frameAllocator.free + 3 * (endVa.ceil.val - startVa.floor.val) := by
  have hframed : (⟨⟨startVa.floor, endVa.ceil, hle⟩, [], .framed, perm⟩ : MapArea).mapType =
    .framed := rfl
  obtain ⟨D, ms', m', F, hrun, hareas, -, hwf', hperm, ht, -, hf⟩ := push_userWF hwf hframed rfl
    (fun v hv => by have := VPNRange.mem_toList.mp hv; dsimp only at this; omega)
    (fun v hv => hnew v (VPNRange.mem_toList.mp hv).1 (VPNRange.mem_toList.mp hv).2)
    (by simpa [VPNRange.toList] using hfree)
  refine ⟨D, ms', m', F, (insertFramedArea_run _ _ hle m).trans hrun, hareas, hwf', hperm, ht, ?_⟩
  simpa [VPNRange.toList] using hf

end MemorySet

/-! ## The copy of `from_existed_user` -/

/-- A leaf entry's frame number has 44 bits. -/
theorem lookup_ppn_lt {mem : ByteMem} {root : PhysPageNum} {vpn : VirtPageNum} {q : PhysPageNum}
    {fl : PTEFlags} (h : lookup mem root vpn = some (q, fl)) : q.val < 2 ^ 44 := by
  simp only [lookup, Option.bind_eq_some_iff, PageTableEntry.mapping] at h
  obtain ⟨p, -, h⟩ := h
  split_ifs at h
  cases h
  simp [PageTableEntry.ppn, Nat.mod_lt]

/-- What the tree maps, `translate` returns as a valid entry. -/
theorem translate_of_lookup {pt : PageTable} {mem : ByteMem} {vpn : VirtPageNum}
    {p : PhysPageNum} {fl : PTEFlags} (h : lookup mem pt.rootPpn vpn = some (p, fl)) :
    ∃ pte, pt.translate mem vpn = some pte ∧ pte.ppn = p := by
  have hmap := translate_mapping pt mem vpn
  rw [h] at hmap
  cases ht : pt.translate mem vpn with
  | none => simp [ht] at hmap
  | some pte =>
    rw [ht, Option.bind_some, PageTableEntry.mapping] at hmap
    split_ifs at hmap
    cases hmap
    exact ⟨pte, rfl, rfl⟩

namespace MemorySet

/-- One page of the copy loop of `from_existed_user`: the bytes of the source frame go to the
destination frame. -/
theorem copyPage_eq {user ms : MemorySet} {m : Machine} {vpn : VirtPageNum} {p q : PhysPageNum}
    {fl fl' : PTEFlags} (hs : lookup m.mem user.pageTable.rootPpn vpn = some (p, fl))
    (hd : lookup m.mem ms.pageTable.rootPpn vpn = some (q, fl')) :
    (copyPage user ms vpn).run m =
      .ok ((), { m with mem := m.mem.writeBytes q.base (m.mem.bytes p.base pageSize) }) := by
  obtain ⟨pte, hpte, rfl⟩ := translate_of_lookup hs
  obtain ⟨pte', hpte', rfl⟩ := translate_of_lookup hd
  simp [copyPage, translate, hpte, hpte', unwrap, copyToFrame]
  rfl

section Copying

variable {strampoline : Nat}

/-- A data frame of a user space is none of its table's frames. -/
theorem UserWF.data_not_mem_table {ms : MemorySet} {m : Machine}
    (hwf : ms.UserWF strampoline m) {a : MapArea} (ha : a ∈ ms.areas) {v : VirtPageNum}
    {f : PhysPageNum} (hv : (v, f) ∈ a.dataFrames) : f ∉ ms.pageTable.frames := fun hT =>
  List.disjoint_of_nodup_append hwf.nodup hT
    (List.mem_flatMap.mpr ⟨a, ha, List.mem_map_of_mem (f := Prod.snd) hv⟩)

/-- A mapped page other than the trampoline's lies in an area. -/
theorem UserWF.mem_pages {ms : MemorySet} {m : Machine} (hwf : ms.UserWF strampoline m)
    {vpn : VirtPageNum} (hne : vpn ≠ trampolineVpn) {f : PhysPageNum} {fl : PTEFlags}
    (h : ms.expected strampoline vpn = some (f, fl)) : vpn ∈ ms.pages := by
  obtain ⟨a, ha, hv, -⟩ := expected_eq_some hne h
  refine List.mem_flatMap.mpr ⟨a, ha, ?_⟩
  rw [← hwf.keys a ha]
  exact List.mem_map_of_mem hv

theorem UserWF.lt_of_mem_pages {ms : MemorySet} {m : Machine} (hwf : ms.UserWF strampoline m)
    {vpn : VirtPageNum} (hv : vpn ∈ ms.pages) : vpn.val < 2 ^ 27 - 1 := by
  obtain ⟨a, ha, hva⟩ := List.mem_flatMap.mp hv
  exact hwf.below a ha vpn hva

/-- A stage of `from_existed_user` on `S` from `m₀`: the new space `C` is a user space, built
from frames the allocator did not own in `m₀`, of which only they were written since; and its
pages `V` are mapped with `S`'s flags to frames holding the bytes `S`'s frames held in `m₀`. -/
structure Copying (strampoline : Nat) (m₀ : Machine) (S C : MemorySet) (V : List VirtPageNum)
    (m : Machine) : Prop where
  wf : C.UserWF strampoline m
  takes : Machine.Takes [] C.frames m₀ m
  pages : ∀ vpn ∈ V, vpn ∈ C.pages
  copied : ∀ vpn ∈ V, ∃ p q fl, lookup m₀.mem S.pageTable.rootPpn vpn = some (p, fl) ∧
    lookup m.mem C.pageTable.rootPpn vpn = some (q, fl) ∧
    m.mem.bytes q.base pageSize = m₀.mem.bytes p.base pageSize

variable {m₀ m : Machine} {S C : MemorySet} {V : List VirtPageNum}

/-- The source space is untouched: the copy writes only frames it takes. -/
theorem Copying.source (hc : Copying strampoline m₀ S C V m) (hS : S.UserWF strampoline m₀) :
    S.UserWF strampoline m ∧
      ∀ vpn, lookup m.mem S.pageTable.rootPpn vpn = lookup m₀.mem S.pageTable.rootPpn vpn :=
  hS.of_step hc.takes.step (fun q hq hT => by
    rw [List.nil_append] at hq
    exact hc.takes.fresh q hq (hS.valid.owned q hT)) hc.wf.valid.alloc

/-- A page of the source is backed by a frame the source owns. -/
theorem UserWF.source_frame (hS : S.UserWF strampoline m₀) {vpn : VirtPageNum}
    (hlt : vpn.val < 2 ^ 27) (hne : vpn ≠ trampolineVpn) {p : PhysPageNum} {fl : PTEFlags}
    (hsrc : lookup m₀.mem S.pageTable.rootPpn vpn = some (p, fl)) :
    m₀.frameAllocator.Owns p.val ∧ p.val < 2 ^ 44 := by
  obtain ⟨a, ha, hv, -⟩ := expected_eq_some hne ((hS.maps vpn hlt).symm.trans hsrc)
  exact ⟨hS.owned p (mem_frames_of_mem ha hv), lookup_ppn_lt hsrc⟩

/-- One page of the copy: the destination frame receives the source frame's bytes, and every
page copied before keeps its bytes, since distinct pages have distinct frames. -/
theorem Copying.copyPage (hc : Copying strampoline m₀ S C V m) (hS : S.UserWF strampoline m₀)
    {vpn : VirtPageNum} (hvpn : vpn ∈ C.pages) (hnew : vpn ∉ V) {p q : PhysPageNum}
    {fl : PTEFlags} (hsrc : lookup m₀.mem S.pageTable.rootPpn vpn = some (p, fl))
    (hdst : C.expected strampoline vpn = some (q, fl)) :
    ∃ m', (copyPage S C vpn).run m = .ok ((), m') ∧
      Copying strampoline m₀ S C (V ++ [vpn]) m' ∧ m'.frameAllocator = m.frameAllocator := by
  have hlt := hc.wf.lt_of_mem_pages hvpn
  have hne : vpn ≠ trampolineVpn := by
    rintro rfl
    simp [trampolineVpn] at hlt
  obtain ⟨-, hlS⟩ := hc.source hS
  have hdst' : lookup m.mem C.pageTable.rootPpn vpn = some (q, fl) :=
    (hc.wf.maps vpn (by omega)).trans hdst
  obtain ⟨a, ha, hq, -⟩ := expected_eq_some hne hdst
  obtain ⟨hpown, hp44⟩ := hS.source_frame (by omega) hne hsrc
  -- the copy writes the destination frame, a data frame of `C`
  have hstep := Machine.step_writeBytes m (lookup_ppn_lt hdst')
    (ByteMem.bytes_length m.mem p.base pageSize).le
  obtain ⟨hwf', hl'⟩ := hc.wf.of_step hstep (fun w hw => by
    rw [List.mem_singleton] at hw
    exact hw ▸ hc.wf.data_not_mem_table ha hq) hc.wf.valid.alloc
  refine ⟨_, copyPage_eq ((hlS vpn).trans hsrc) hdst', ⟨hwf', ?_, ?_, ?_⟩, rfl⟩
  · refine (hc.takes.trans (Machine.Takes.of_step hstep) fun w hw => ?_).perm (by simp)
    rw [List.mem_singleton] at hw
    exact .inr (hw ▸ mem_frames_of_mem ha hq)
  · intro w hw
    rcases List.mem_append.mp hw with hw | hw
    · exact hc.pages w hw
    · rw [List.mem_singleton] at hw
      exact hw ▸ hvpn
  · intro w hw
    rcases List.mem_append.mp hw with hw | hw
    · obtain ⟨p', q', fl', h1, h2, h3⟩ := hc.copied w hw
      refine ⟨p', q', fl', h1, (hl' w).trans h2, ?_⟩
      -- a page copied before is backed by another frame
      have hwlt := hc.wf.lt_of_mem_pages (hc.pages w hw)
      have hwne : w ≠ trampolineVpn := by
        rintro rfl
        simp [trampolineVpn] at hwlt
      obtain ⟨b, hb, hq', -⟩ := expected_eq_some hwne ((hc.wf.maps w (by omega)).symm.trans h2)
      have hqq : q' ∉ [q] := by
        rw [List.mem_singleton]
        rintro rfl
        exact hnew (hc.wf.frame_inj ha hb hq hq' ▸ hw)
      rw [hstep.bytes_eq hqq (lookup_ppn_lt h2), h3]
    · rw [List.mem_singleton] at hw
      subst hw
      refine ⟨p, q, fl, hsrc, (hl' _).trans hdst', ?_⟩
      have hback := ByteMem.bytes_writeBytes m.mem q.base (m.mem.bytes p.base pageSize)
      rw [ByteMem.bytes_length] at hback
      show (m.mem.writeBytes q.base (m.mem.bytes p.base pageSize)).bytes q.base pageSize = _
      rw [hback, hc.takes.bytes_eq hpown List.not_mem_nil hp44]

/-- The copy loop over the pages `vs` of an area. -/
theorem Copying.copyPages (hc : Copying strampoline m₀ S C V m) (hS : S.UserWF strampoline m₀)
    {vs : List VirtPageNum} (hnd : vs.Nodup)
    (hvs : ∀ vpn ∈ vs, vpn ∈ C.pages ∧ vpn ∉ V ∧ ∃ p q fl,
      lookup m₀.mem S.pageTable.rootPpn vpn = some (p, fl) ∧
      C.expected strampoline vpn = some (q, fl)) :
    ∃ m', (vs.forM (MemorySet.copyPage S C)).run m = .ok ((), m') ∧
      Copying strampoline m₀ S C (V ++ vs) m' ∧ m'.frameAllocator = m.frameAllocator := by
  -- the invariant: the pages `done` of `vs` are copied, and no frame was allocated
  have hloop := Triple.forM (f := MemorySet.copyPage S C)
    (fun done m' => Copying strampoline m₀ S C (V ++ done) m' ∧
      m'.frameAllocator = m.frameAllocator) vs [] (by
    rintro done vpn rest hsplit m₁ ⟨hc₁, hfa₁⟩
    simp only [List.nil_append] at hsplit
    obtain ⟨hpages, hV, p, q, fl, hsrc, hdst⟩ :=
      hvs vpn (hsplit ▸ List.mem_append_right _ List.mem_cons_self)
    have hnew : vpn ∉ V ++ done := by
      intro hmem
      rcases List.mem_append.mp hmem with h | h
      · exact hV h
      · have hnd' := hsplit ▸ hnd
        exact (List.nodup_append.mp hnd').2.2 vpn h vpn List.mem_cons_self rfl
    obtain ⟨m₂, hrun, hc₂, hfa₂⟩ := hc₁.copyPage hS hpages hnew hsrc hdst
    refine ⟨(), m₂, hrun, ?_, hfa₂.trans hfa₁⟩
    rw [← List.append_assoc]
    exact hc₂)
  obtain ⟨_, m', hrun, hc', hfa'⟩ := hloop m ⟨by simpa using hc, rfl⟩
  exact ⟨m', hrun, by simpa using hc', hfa'⟩

/-- Pushing an area onto the copy keeps the pages copied so far. -/
theorem Copying.push (hc : Copying strampoline m₀ S C V m) {area : MapArea}
    (hframed : area.mapType = .framed) (hdf : area.dataFrames = [])
    (hbelow : ∀ vpn ∈ area.vpnRange.toList, vpn.val < 2 ^ 27 - 1)
    (hnew : ∀ vpn ∈ area.vpnRange.toList, vpn ∉ C.pages)
    (hfree : 3 * area.vpnRange.toList.length ≤ m.frameAllocator.free) :
    ∃ D C' m', (C.push area none).run m = .ok (C', m') ∧
      C'.areas = C.areas ++ [{ area with dataFrames := D }] ∧
      Copying strampoline m₀ S C' V m' ∧
      m.frameAllocator.free ≤ m'.frameAllocator.free + 3 * area.vpnRange.toList.length := by
  obtain ⟨D, C', m', F, hrun, hareas, hroot, hwf', hperm, ht, hl, hf⟩ :=
    push_userWF hc.wf hframed hdf hbelow hnew hfree
  have hkeys : ({ area with dataFrames := D } : MapArea).dataFrames.map Prod.fst =
      area.vpnRange.toList :=
    hwf'.keys _ (hareas ▸ List.mem_append_right _ (List.mem_singleton_self _))
  refine ⟨D, C', m', hrun, hareas, ⟨hwf', ?_, fun vpn hv => ?_, fun vpn hv => ?_⟩, hf⟩
  · exact (hc.takes.trans ht fun q hq => .inr (List.mem_append_left _ hq)).perm hperm.symm
  · obtain ⟨b, hb, hvb⟩ := List.mem_flatMap.mp (hc.pages vpn hv)
    exact List.mem_flatMap.mpr ⟨b, hareas ▸ List.mem_append_left _ hb, hvb⟩
  · obtain ⟨p, q, fl, h1, h2, h3⟩ := hc.copied vpn hv
    have hvlt := hc.wf.lt_of_mem_pages (hc.pages vpn hv)
    have hwne : vpn ≠ trampolineVpn := by
      rintro rfl
      simp [trampolineVpn] at hvlt
    -- the page is none of the new area's, and its frame is a data frame of `C`
    have hnone : ({ area with dataFrames := D } : MapArea).mapping vpn = none :=
      MapArea.mapping_eq_none fun hk => hnew vpn (hkeys ▸ hk) (hc.pages vpn hv)
    obtain ⟨b, hb, hq, -⟩ := expected_eq_some hwne ((hc.wf.maps vpn (by omega)).symm.trans h2)
    refine ⟨p, q, fl, h1, ?_, ?_⟩
    · rw [hroot, hl vpn (by omega), hnone, Option.none_or, h2]
    · rw [ht.bytes_eq (hc.wf.owned q (mem_frames_of_mem hb hq))
        (hc.wf.data_not_mem_table hb hq) (lookup_ppn_lt h2), h3]

/-- One area of `from_existed_user`: a fresh copy of it is pushed, then its pages copied. -/
theorem Copying.copyArea (hc : Copying strampoline m₀ S C V m) (hS : S.UserWF strampoline m₀)
    {a : MapArea} (ha : a ∈ S.areas) (hnew : ∀ vpn ∈ a.vpnRange.toList, vpn ∉ C.pages)
    (hfree : 3 * a.vpnRange.toList.length ≤ m.frameAllocator.free) :
    ∃ D C' m', (copyArea S C a).run m = .ok (C', m') ∧
      C'.areas = C.areas ++ [{ MapArea.fromAnother a with dataFrames := D }] ∧
      Copying strampoline m₀ S C' (V ++ a.vpnRange.toList) m' ∧
      m.frameAllocator.free ≤ m'.frameAllocator.free + 3 * a.vpnRange.toList.length := by
  obtain ⟨D, C', m₁, hrun₁, hareas, hc₁, hf₁⟩ :=
    hc.push (show (MapArea.fromAnother a).mapType = .framed from hS.framed a ha) rfl
      (hS.below a ha) hnew hfree
  have ha' : { MapArea.fromAnother a with dataFrames := D } ∈ C'.areas :=
    hareas ▸ List.mem_append_right _ (List.mem_singleton_self _)
  obtain ⟨m₂, hrun₂, hc₂, hfa⟩ := hc₁.copyPages hS a.vpnRange.toList_nodup fun vpn hv => by
    -- the page is mapped in both spaces with the area's permission
    obtain ⟨q, -, hexp⟩ := hc₁.wf.expected_of_mem ha' hv
    obtain ⟨p, -, hsexp⟩ := hS.expected_of_mem ha hv
    have hlt := hS.below a ha vpn hv
    exact ⟨List.mem_flatMap.mpr ⟨_, ha', hv⟩, fun hV => hnew vpn hv (hc.pages vpn hV), p, q, _,
      (hS.maps vpn (by omega)).trans hsexp, hexp⟩
  refine ⟨D, C', m₂, ?_, hareas, hc₂, hfa ▸ hf₁⟩
  rw [MemorySet.copyArea, StateT.run_bind_of_ok hrun₁, StateT.run_bind_of_ok hrun₂]
  rfl

/-- Areas of the same shapes cover the same pages. -/
theorem flatMap_pages_eq {A B : List MapArea} (h : A.map MapArea.shape = B.map MapArea.shape) :
    A.flatMap (fun a => a.vpnRange.toList) = B.flatMap (fun a => a.vpnRange.toList) := by
  induction A generalizing B with
  | nil =>
    cases B with
    | nil => rfl
    | cons b B => simp at h
  | cons a A ih =>
    cases B with
    | nil => simp at h
    | cons b B =>
      simp only [List.map_cons, List.cons.injEq] at h
      have hr : a.vpnRange = b.vpnRange := congrArg Prod.fst h.1
      simp only [List.flatMap_cons, ih h.2, hr]

end Copying

/-- `MemorySet::new_bare`. -/
theorem newBare_spec {m : Machine} (hfa : m.frameAllocator.Inv)
    (hfree : 0 < m.frameAllocator.free) :
    ∃ pt m', newBare.run m = .ok (⟨pt, []⟩, m') ∧ pt.Valid m' ∧
      (∀ vpn, lookup m'.mem pt.rootPpn vpn = none) ∧
      m'.frameAllocator.free + 1 = m.frameAllocator.free ∧ Machine.Takes [] pt.frames m m' := by
  obtain ⟨pt, m', hrun, hv, hl, hf, hstep, hfresh⟩ := PageTable.new_spec hfa hfree
  refine ⟨pt, m', ?_, hv, hl, hf, ⟨hstep, hv.nodup, hfresh, hv.owned⟩⟩
  rw [newBare, StateT.run_bind_of_ok hrun]
  rfl

/-- `map_trampoline` with the trampoline code at a page-aligned physical address: the
trampoline page is mapped to its frame with `R | X`. -/
theorem mapTrampoline_eq (ms : MemorySet) {strampoline : Nat} (hal : strampoline % 4096 = 0)
    (hlt : strampoline < 2 ^ 56) :
    ms.mapTrampoline strampoline =
      (ms.pageTable.map trampolineVpn ⟨strampoline / 4096⟩ (PTEFlags.R ||| PTEFlags.X) >>=
        fun pt => pure { ms with pageTable := pt }) := by
  -- `PhysAddr::from(strampoline)` keeps the address, which is page aligned
  have hpa : (PhysAddr.ofUsize strampoline).val = strampoline := by
    rw [PhysAddr.ofUsize_val, Nat.mod_eq_of_lt hlt]
  have hppn : PhysPageNum.ofPhysAddr (PhysAddr.ofUsize strampoline) =
      .ok ⟨strampoline / 4096⟩ := by
    have hoff : strampoline &&& (pageSize - 1) = 0 := by
      rw [show pageSize - 1 = 2 ^ 12 - 1 by rfl, Nat.and_two_pow_sub_one_eq_mod]
      exact hal
    simp only [PhysPageNum.ofPhysAddr, PhysAddr.pageOffset, PhysAddr.floor, hpa, hoff]
    rfl
  simp [mapTrampoline, trampoline_ofVirtAddr, hppn]
  rfl

/-- `map_trampoline` on a table that does not map the trampoline page yet. -/
theorem mapTrampoline_spec {ms : MemorySet} {m : Machine} (hv : ms.pageTable.Valid m)
    {strampoline : Nat} (hal : strampoline % 4096 = 0) (hlt : strampoline < 2 ^ 56)
    (hun : lookup m.mem ms.pageTable.rootPpn trampolineVpn = none)
    (hfree : 2 ≤ m.frameAllocator.free) :
    ∃ pt' m', (ms.mapTrampoline strampoline).run m = .ok ({ ms with pageTable := pt' }, m') ∧
      pt'.Valid m' ∧ pt'.rootPpn = ms.pageTable.rootPpn ∧
      (∀ v, v.val < 2 ^ 27 → lookup m'.mem ms.pageTable.rootPpn v =
        Function.update (lookup m.mem ms.pageTable.rootPpn) trampolineVpn
          (some (⟨strampoline / 4096⟩, PTEFlags.R ||| PTEFlags.X ||| PTEFlags.V)) v) ∧
      m.frameAllocator.free ≤ m'.frameAllocator.free + 2 ∧ Grows ms.pageTable pt' m m' := by
  obtain ⟨pt', m', hrun, hv', hr', hl', hf', hg'⟩ := PageTable.map_spec hv
    (PTEFlags.R ||| PTEFlags.X) (show trampolineVpn.val < 2 ^ 27 by decide)
    (show strampoline / 4096 < 2 ^ 44 by omega) hun hfree
  refine ⟨pt', m', ?_, hv', hr', hl', hf', hg'⟩
  rw [mapTrampoline_eq ms hal hlt, StateT.run_bind_of_ok hrun]
  rfl

/-- A run of `map_trampoline` that returns mapped the trampoline page to the trampoline code with
`R | X | V` and changed nothing else the table maps. -/
theorem mapTrampoline_ok {ms : MemorySet} {m : Machine} (hv : ms.pageTable.Valid m)
    {strampoline : Nat} (hal : strampoline % 4096 = 0) (hlt : strampoline < 2 ^ 56)
    {ms' : MemorySet} {m' : Machine} (h : (ms.mapTrampoline strampoline).run m = .ok (ms', m')) :
    ms' = { ms with pageTable := ms'.pageTable } ∧ ms'.pageTable.Valid m' ∧
      ms'.pageTable.rootPpn = ms.pageTable.rootPpn ∧
      (∀ v, v.val < 2 ^ 27 → lookup m'.mem ms.pageTable.rootPpn v =
        Function.update (lookup m.mem ms.pageTable.rootPpn) trampolineVpn
          (some (⟨strampoline / 4096⟩, PTEFlags.R ||| PTEFlags.X ||| PTEFlags.V)) v) ∧
      Grows ms.pageTable ms'.pageTable m m' := by
  rw [mapTrampoline_eq ms hal hlt] at h
  obtain ⟨pt', m₁, h₁, h⟩ := StateT.run_bind_eq_ok h
  cases h
  obtain ⟨-, hv', hr', hl', -, hg'⟩ := PageTable.map_ok hv (show trampolineVpn.val < 2 ^ 27 by decide)
    (show strampoline / 4096 < 2 ^ 44 by omega) h₁
  exact ⟨rfl, hv', hr', hl', hg'⟩

/-- `new_bare` then `map_trampoline`, as `from_elf` and `from_existed_user` begin: a user space
with no area, whose table's frames were free. -/
theorem bareUser_spec {strampoline : Nat} {m : Machine} (hfa : m.frameAllocator.Inv)
    (hal : strampoline % 4096 = 0) (hlt : strampoline < 2 ^ 56)
    (hfree : 3 ≤ m.frameAllocator.free) :
    ∃ pt m', (newBare >>= fun ms => ms.mapTrampoline strampoline).run m = .ok (⟨pt, []⟩, m') ∧
      (⟨pt, []⟩ : MemorySet).UserWF strampoline m' ∧ Machine.Takes [] pt.frames m m' ∧
      m.frameAllocator.free ≤ m'.frameAllocator.free + 3 := by
  obtain ⟨pt, m₁, hrun₁, hv₁, hl₁, hf₁, ht₁⟩ := newBare_spec hfa (by omega)
  obtain ⟨pt', m₂, hrun₂, hv₂, hr₂, hl₂, hf₂, hg₂⟩ := mapTrampoline_spec
    (show (⟨pt, []⟩ : MemorySet).pageTable.Valid m₁ from hv₁) hal hlt (hl₁ _) (by omega)
  obtain ⟨P, hP, ht₂⟩ := hg₂.takes hv₂
  refine ⟨pt', m₂, by rw [StateT.run_bind_of_ok hrun₁]; exact hrun₂, ⟨hv₂, by simp, by simp,
    by simp, List.Pairwise.nil, fun v hv => ?_, fun q hq => ?_, by simpa [frames] using hv₂.nodup⟩,
    ?_, by omega⟩
  · -- the table maps the trampoline page and nothing else
    show lookup m₂.mem pt'.rootPpn v = _
    rw [hr₂, hl₂ v hv, Function.update_apply]
    split_ifs with h
    · subst h
      exact (expected_trampoline _ _).symm
    · rw [hl₁, expected_of_ne h]
      rfl
  · exact hv₂.owned q (by simpa [frames] using hq)
  · have := ht₁.trans ht₂ fun q hq => .inr hq
    simpa [hP] using this

/-- A run of `new_bare` then `map_trampoline` that returns gives a user space with no area,
built from frames that were free and of which only they were written. -/
theorem bareUser_ok {strampoline : Nat} {m : Machine} (hfa : m.frameAllocator.Inv)
    (hal : strampoline % 4096 = 0) (hlt : strampoline < 2 ^ 56) {ms : MemorySet} {m' : Machine}
    (h : (newBare >>= fun ms => ms.mapTrampoline strampoline).run m = .ok (ms, m')) :
    ms.areas = [] ∧ ms.UserWF strampoline m' ∧ Machine.Takes [] ms.frames m m' := by
  obtain ⟨ms₁, m₁, h₁, h₂⟩ := StateT.run_bind_eq_ok h
  obtain ⟨pt, m₁', hpt, h₁⟩ := StateT.run_bind_eq_ok h₁
  cases h₁
  obtain ⟨hv₁, hl₁, -, hstep₁, hfresh₁⟩ := PageTable.new_ok hfa hpt
  obtain ⟨hms, hv₂, hr₂, hl₂, hg₂⟩ :=
    mapTrampoline_ok (show (⟨pt, []⟩ : MemorySet).pageTable.Valid m₁ from hv₁) hal hlt h₂
  obtain ⟨P, hP, ht₂⟩ := hg₂.takes hv₂
  obtain ⟨pt', areas⟩ := ms
  simp only [MemorySet.mk.injEq] at hms
  obtain ⟨-, rfl⟩ := hms
  have ht₁ : Machine.Takes [] pt.frames m m₁ := ⟨hstep₁, hv₁.nodup, hfresh₁, hv₁.owned⟩
  refine ⟨rfl, ⟨hv₂, by simp, by simp, by simp, List.Pairwise.nil, fun v hv => ?_,
    fun q hq => ?_, by simpa [frames] using hv₂.nodup⟩, ?_⟩
  · -- the table maps the trampoline page and nothing else
    show lookup m'.mem pt'.rootPpn v = _
    rw [hr₂, hl₂ v hv, Function.update_apply]
    split_ifs with h
    · subst h
      exact (expected_trampoline _ _).symm
    · rw [hl₁, expected_of_ne h]
      rfl
  · exact hv₂.owned q (by simpa [frames] using hq)
  · have := ht₁.trans ht₂ fun q hq => .inr hq
    dsimp only at hP
    simpa [frames, hP] using this

/-- **`MemorySet::from_existed_user`**, the copy `fork` makes. From a user space `S` and
enough free frames, it returns a user space `C` with `S`'s areas in the same order, every page
of `S` mapped in `C` with `S`'s flags to a frame holding the bytes of `S`'s frame, and built
only from frames the allocator did not own before, so that only they were written. -/
theorem fromExistedUser_spec {strampoline : Nat} {S : MemorySet} {m : Machine}
    (hS : S.UserWF strampoline m) (hal : strampoline % 4096 = 0) (hlt : strampoline < 2 ^ 56)
    (hfree : 3 + 3 * S.pages.length ≤ m.frameAllocator.free) :
    ∃ C m', (fromExistedUser strampoline S).run m = .ok (C, m') ∧
      C.areas.map MapArea.shape = S.areas.map MapArea.shape ∧
      Copying strampoline m S C S.pages m' ∧
      m.frameAllocator.free ≤ m'.frameAllocator.free + 3 + 3 * S.pages.length := by
  -- a bare table, then the trampoline
  obtain ⟨pt', m₂, hrun₂, hwf₂, ht₂, hf₂⟩ := bareUser_spec hS.valid.alloc hal hlt (by omega)
  have hc₀ : Copying strampoline m S ⟨pt', []⟩ [] m₂ :=
    ⟨hwf₂, by simpa [frames] using ht₂, by simp, by simp⟩
  -- the loop over the areas: the copy has the shapes and the pages of the areas `done`
  have hloop := Triple.foldlM (f := copyArea S)
    (fun done C m' => C.areas.map MapArea.shape = done.map MapArea.shape ∧
      Copying strampoline m S C (done.flatMap fun a => a.vpnRange.toList) m' ∧
      m.frameAllocator.free ≤
        m'.frameAllocator.free + 3 + 3 * (done.flatMap fun a => a.vpnRange.toList).length)
    S.areas [] ⟨pt', []⟩ (by
      rintro done a rest C hsplit m₃ ⟨hshape, hc, hf⟩
      simp only [List.nil_append] at hsplit
      have ha : a ∈ S.areas := hsplit ▸ List.mem_append_right _ List.mem_cons_self
      -- the area's pages are none of the copy's: those are the pages of the areas before it
      have hnew : ∀ vpn ∈ a.vpnRange.toList, vpn ∉ C.pages := by
        intro vpn hv hC
        rw [pages, flatMap_pages_eq hshape] at hC
        obtain ⟨d, hd, hvd⟩ := List.mem_flatMap.mp hC
        have hdis := hS.disjoint
        rw [hsplit] at hdis
        exact (List.pairwise_append.mp hdis).2.2 d hd a List.mem_cons_self vpn hvd hv
      have hlen : S.pages.length = (done.flatMap fun a => a.vpnRange.toList).length +
          a.vpnRange.toList.length + (rest.flatMap fun a => a.vpnRange.toList).length := by
        simp only [pages, hsplit, List.flatMap_append, List.flatMap_cons, List.length_append]
        omega
      obtain ⟨D, C', m₄, hrun, hareas, hc', hf'⟩ := hc.copyArea hS ha hnew (by omega)
      refine ⟨C', m₄, hrun, ?_, by simpa using hc', ?_⟩
      · rw [hareas, List.map_append, hshape, List.map_append]
        rfl
      · simp only [List.flatMap_append, List.flatMap_singleton, List.length_append]
        omega)
  obtain ⟨C, m', hrun, hshape, hc, hf⟩ := hloop m₂ ⟨rfl, by simpa using hc₀, by simp; omega⟩
  refine ⟨C, m', ?_, by simpa using hshape, by simpa [pages] using hc, by simpa [pages] using hf⟩
  rw [fromExistedUser, ← bind_assoc, StateT.run_bind_of_ok hrun₂]
  exact hrun

/-- The frames `drop` deallocates are the space's frames, in another order. -/
theorem dropOrder_perm (ms : MemorySet) : ms.dropOrder.Perm ms.frames :=
  List.Perm.append_left _ (List.Perm.flatMap_left _ fun a _ =>
    (List.mergeSort_perm a.dataFrames _).map Prod.snd)

/-- Dropping a space whose frames are distinct and owned gives all of them back to the
allocator, and writes no memory. -/
theorem drop_spec {ms : MemorySet} {m : Machine} (hi : m.frameAllocator.Inv)
    (hown : ∀ q ∈ ms.frames, m.frameAllocator.Owns q.val) (hnd : ms.frames.Nodup) :
    ∃ fa', ms.drop.run m = .ok ((), ⟨m.mem, fa'⟩) ∧ fa'.Inv ∧
      (∀ x, fa'.Owns x ↔ m.frameAllocator.Owns x ∧ ∀ q ∈ ms.frames, x ≠ q.val) ∧
      fa'.free = m.frameAllocator.free + ms.frames.length := by
  have hperm := dropOrder_perm ms
  have hndL := hperm.nodup_iff.mpr hnd
  -- the invariant: the frames `done` are given back, each once
  have hloop := Triple.forM (f := frameDealloc)
    (fun done m' => m'.mem = m.mem ∧ m'.frameAllocator.Inv ∧
      (∀ x, m'.frameAllocator.Owns x ↔ m.frameAllocator.Owns x ∧ ∀ q ∈ done, x ≠ q.val) ∧
      m'.frameAllocator.free = m.frameAllocator.free + done.length) ms.dropOrder [] (by
    rintro done c rest hsplit m₁ ⟨hmem, hinv, hown₁, hfree⟩
    simp only [List.nil_append] at hsplit
    have hc : c ∈ ms.frames := hperm.mem_iff.mp (hsplit ▸ List.mem_append_right _ List.mem_cons_self)
    have hcd : ∀ q ∈ done, c.val ≠ q.val := by
      intro q hq heq
      have hcq : c = q := by cases c; cases q; simp_all
      have hnd' := hsplit ▸ hndL
      exact (List.nodup_append.mp hnd').2.2 q hq c List.mem_cons_self hcq.symm
    obtain ⟨fa', hrun, hinv', hno, hoth, hfree'⟩ :=
      frameDealloc_spec hinv ((hown₁ c.val).mpr ⟨hown c hc, hcd⟩)
    refine ⟨(), _, hrun, hmem, hinv', fun x => ?_, by simp [hfree', hfree]; omega⟩
    by_cases hx : x = c.val
    · subst hx
      simp only [hno, false_iff, not_and, List.mem_append, List.mem_singleton]
      exact fun _ h => h c (.inr rfl) rfl
    · rw [hoth x hx, hown₁ x]
      simp only [List.mem_append, List.mem_singleton]
      constructor
      · rintro ⟨h₁, h₂⟩
        refine ⟨h₁, fun q hq => ?_⟩
        rcases hq with hq | rfl
        · exact h₂ q hq
        · exact hx
      · rintro ⟨h₁, h₂⟩
        exact ⟨h₁, fun q hq => h₂ q (.inl hq)⟩)
  obtain ⟨_, m', hrun, hmem, hinv, hown', hfree⟩ := hloop m ⟨rfl, hi, by simp, by simp⟩
  refine ⟨m'.frameAllocator, ?_, hinv, fun x => ?_, ?_⟩
  · rw [drop, ← hmem]
    exact hrun
  · rw [hown' x]
    simp only [List.nil_append, hperm.mem_iff]
  · rw [hfree, List.nil_append, hperm.length_eq]

end MemorySet

end NaiveOs
