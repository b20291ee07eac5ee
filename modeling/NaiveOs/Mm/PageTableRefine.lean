import Mathlib
import NaiveOs.Mm.PageTable

/-!
# The page table refines a finite map

A `PageTable` is a three-level radix tree of 4 KiB frames. This module says which tree a
table is and what it maps:

- `tableAt mem root path` is the table reached from `root` by following the entries named by
  `path`, the walk `find_pte` performs;
- `lookup mem root vpn` is what the tree maps `vpn` to: the ppn and flags of its leaf entry,
  when that entry is valid (`translate_mapping` ties it to `PageTable::translate`);
- `TreeWF` is the shape invariant: every table reached by a path of at most two indexes is one
  of the table's frames (`TablesIn`), and different paths reach different frames.

Each of the three ways the code changes memory keeps the shape and changes `lookup` only where
it should: zeroing a fresh frame, linking it behind an invalid directory entry, and writing a
leaf entry. `find_pte_create`, `map`, `unmap` and `is_mapped` are then specified against
`lookup`, and a run of them from `PageTable::new` refines a finite map updated by the same
calls (`translate_refines_map`).

`translate` itself is *not* unchanged by an operation on another page number: creating the
tables on the way to a leaf turns `None` into an invalid entry for every page number sharing
the new table (`map_changes_translate_of_other_vpn`).
-/

namespace NaiveOs

/-- The ppn and flags an entry maps to: a valid entry maps, an invalid one does not. -/
def PageTableEntry.mapping (pte : PageTableEntry) : Option (PhysPageNum × PTEFlags) :=
  if pte.isValid then some (pte.ppn, pte.flags) else none

namespace PageTableEntry

@[simp] theorem mapping_empty : empty.mapping = none := by
  simp [mapping]

theorem mapping_new {ppn : PhysPageNum} (h : ppn.val < 2 ^ 44) (flags : PTEFlags) :
    (new ppn (flags ||| PTEFlags.V)).mapping = some (ppn, flags ||| PTEFlags.V) := by
  simp [mapping, new_isValid_of_V h, new_ppn h, new_flags h]

@[simp] theorem mapping_isSome (pte : PageTableEntry) : pte.mapping.isSome = pte.isValid := by
  unfold mapping
  split <;> simp_all

end PageTableEntry

namespace PageTable

/-! ## Walks -/

/-- The table behind entry `i` of the table frame `p`, when that entry is valid. -/
def child (mem : ByteMem) (p : PhysPageNum) (i : Nat) : Option PhysPageNum :=
  if (entryAt mem p i).isValid then some (entryAt mem p i).ppn else none

/-- The table reached from `p` by following the entries named by `path`. -/
def tableAt (mem : ByteMem) : PhysPageNum → List Nat → Option PhysPageNum
  | p, [] => some p
  | p, i :: path => (child mem p i).bind fun q => tableAt mem q path

@[simp] theorem tableAt_nil (mem : ByteMem) (p : PhysPageNum) : tableAt mem p [] = some p := rfl

@[simp] theorem tableAt_cons (mem : ByteMem) (p : PhysPageNum) (i : Nat) (path : List Nat) :
    tableAt mem p (i :: path) = (child mem p i).bind fun q => tableAt mem q path := rfl

theorem tableAt_append (mem : ByteMem) :
    ∀ (p : PhysPageNum) (path path' : List Nat),
      tableAt mem p (path ++ path') = (tableAt mem p path).bind fun q => tableAt mem q path'
  | p, [], path' => rfl
  | p, i :: path, path' => by
    cases hc : child mem p i with
    | none => simp [hc]
    | some q => simp [hc, tableAt_append mem q path path']

/-- A walk depends only on the entries it reads: if every entry read on the way agrees
between two memories, the walk reaches the same table in both. -/
theorem tableAt_congr {mem mem' : ByteMem} :
    ∀ (path : List Nat) (p : PhysPageNum),
      (∀ pre j post q, path = pre ++ j :: post → tableAt mem p pre = some q →
        entryAt mem' q j = entryAt mem q j) →
      tableAt mem' p path = tableAt mem p path
  | [], _, _ => rfl
  | i :: path, p, hagree => by
    have h0 : entryAt mem' p i = entryAt mem p i := hagree [] i path p rfl rfl
    have hchild : child mem' p i = child mem p i := by simp only [child, h0]
    rw [tableAt_cons, tableAt_cons, hchild]
    cases hc : child mem p i with
    | none => rfl
    | some q =>
      -- the rest of the walk starts at `q`; its reads are reads of the whole walk
      show tableAt mem' q path = tableAt mem q path
      refine tableAt_congr path q fun pre j post q' hsplit hq' => ?_
      exact hagree (i :: pre) j post q' (by simp [hsplit]) (by simp [hc, hq'])

/-- The directory indexes of a page number: the path from the root to its leaf table. -/
def dirPath (vpn : VirtPageNum) : List Nat := [(vpn.val >>> 18) &&& 511, (vpn.val >>> 9) &&& 511]

/-- The index of a page number's entry in its leaf table. -/
def leafIdx (vpn : VirtPageNum) : Nat := vpn.val &&& 511

theorem indexes_eq_dirPath (vpn : VirtPageNum) : vpn.indexes = dirPath vpn ++ [leafIdx vpn] :=
  rfl

theorem leafIdx_lt (vpn : VirtPageNum) : leafIdx vpn < 512 :=
  Nat.lt_succ_of_le Nat.and_le_right

theorem dirPath_lt (vpn : VirtPageNum) : ∀ i ∈ dirPath vpn, i < 512 := by
  simp only [dirPath, List.mem_cons, List.not_mem_nil, or_false]
  rintro i (rfl | rfl) <;> exact Nat.lt_succ_of_le Nat.and_le_right

/-- What the tree rooted at `root` maps `vpn` to. -/
def lookup (mem : ByteMem) (root : PhysPageNum) (vpn : VirtPageNum) :
    Option (PhysPageNum × PTEFlags) :=
  (tableAt mem root (dirPath vpn)).bind fun p => (entryAt mem p (leafIdx vpn)).mapping

theorem lookup_of_tableAt {mem : ByteMem} {root p : PhysPageNum} {vpn : VirtPageNum}
    (h : tableAt mem root (dirPath vpn) = some p) :
    lookup mem root vpn = (entryAt mem p (leafIdx vpn)).mapping := by
  rw [lookup, h, Option.bind_some]

/-- From a zeroed frame no walk goes further than the frame itself. -/
theorem tableAt_of_zero {mem : ByteMem} {f : PhysPageNum}
    (hzero : ∀ j < 512, entryAt mem f j = PageTableEntry.empty) :
    ∀ {path : List Nat} {q : PhysPageNum}, (∀ i ∈ path, i < 512) →
      tableAt mem f path = some q → path = [] ∧ q = f
  | [], _, _, h => ⟨rfl, (Option.some.inj h).symm⟩
  | j :: _, _, hpath, h => by
    have hj := hpath j (by simp)
    simp [child, hzero j hj] at h

/-- `find_pte` follows the walk to the leaf table and points into it. -/
theorem findPte_eq (pt : PageTable) (mem : ByteMem) (vpn : VirtPageNum) :
    pt.findPte mem vpn =
      (tableAt mem pt.rootPpn (dirPath vpn)).map fun p => p.pteAddr (leafIdx vpn) := by
  simp only [findPte, indexes_eq_dirPath, dirPath, List.cons_append, List.nil_append,
    findPteLoop, tableAt_cons, child, entryAt]
  -- two directory levels, each either stopping at an invalid entry or descending
  by_cases h0 : (readPte mem (pt.rootPpn.pteAddr ((vpn.val >>> 18) &&& 511))).isValid <;>
    simp only [h0] <;> try rfl
  by_cases h1 : (readPte mem ((readPte mem (pt.rootPpn.pteAddr ((vpn.val >>> 18) &&& 511))).ppn.pteAddr
      ((vpn.val >>> 9) &&& 511))).isValid <;> simp [h1]

/-- `translate` sees exactly the tree's mapping, up to `None` versus an invalid entry. -/
theorem translate_mapping (pt : PageTable) (mem : ByteMem) (vpn : VirtPageNum) :
    (pt.translate mem vpn).bind PageTableEntry.mapping = lookup mem pt.rootPpn vpn := by
  rw [translate, findPte_eq, lookup]
  cases tableAt mem pt.rootPpn (dirPath vpn) <;> rfl

/-! ## The shape of the tree -/

/-- A path from the root to a table: at most two indexes, each below 512. -/
def IsDirPath (path : List Nat) : Prop := path.length ≤ 2 ∧ ∀ i ∈ path, i < 512

theorem isDirPath_dirPath (vpn : VirtPageNum) : IsDirPath (dirPath vpn) :=
  ⟨by simp [dirPath], dirPath_lt vpn⟩

/-- What stands before an index of a path is a shorter path, and the index is in range. -/
theorem IsDirPath.of_split {path pre post : List Nat} {j : Nat} (h : IsDirPath path)
    (hs : path = pre ++ j :: post) : IsDirPath pre ∧ j < 512 ∧ pre.length < path.length := by
  subst hs
  refine ⟨⟨?_, fun i hi => h.2 i (by simp [hi])⟩, h.2 j (by simp), by simp⟩
  have := h.1
  simp only [List.length_append, List.length_cons] at this
  omega

theorem IsDirPath.of_append {pre post : List Nat} (h : IsDirPath (pre ++ post)) : IsDirPath pre :=
  ⟨le_trans (by simp) h.1, fun i hi => h.2 i (List.mem_append_left _ hi)⟩

/-- The tables of a table with frames `T`: the frames are page numbers, and every table a
path reaches is one of them. A write outside these frames leaves every walk alone. -/
structure TablesIn (mem : ByteMem) (root : PhysPageNum) (T : List PhysPageNum) : Prop where
  frames_lt : ∀ p ∈ T, p.val < 2 ^ 44
  reach_mem : ∀ path p, IsDirPath path → tableAt mem root path = some p → p ∈ T

/-- The tree invariant of a table with frames `T`: besides, no two paths reach the same table,
which is what lets a write to one entry change only the walks through it. -/
structure TreeWF (mem : ByteMem) (root : PhysPageNum) (T : List PhysPageNum) : Prop
    extends TablesIn mem root T where
  reach_inj : ∀ path path' p, IsDirPath path → IsDirPath path' →
    tableAt mem root path = some p → tableAt mem root path' = some p → path = path'

/-- `lookup` changes only if the walk to the leaf table or the leaf entry does. -/
theorem lookup_congr {mem mem' : ByteMem} {root : PhysPageNum} {vpn : VirtPageNum}
    (hwalk : tableAt mem' root (dirPath vpn) = tableAt mem root (dirPath vpn))
    (hleaf : ∀ p, tableAt mem root (dirPath vpn) = some p →
      entryAt mem' p (leafIdx vpn) = entryAt mem p (leafIdx vpn)) :
    lookup mem' root vpn = lookup mem root vpn := by
  unfold lookup
  rw [hwalk]
  generalize tableAt mem root (dirPath vpn) = o at hleaf ⊢
  -- `rfl` here would compare the two leaf reads byte by byte before reducing the `bind`
  cases o with
  | none => simp only [Option.bind_none]
  | some p => simp [hleaf p rfl]

/-- A change of memory that no walk sees keeps the invariant. -/
theorem TreeWF.of_walks {mem mem' : ByteMem} {root : PhysPageNum} {T : List PhysPageNum}
    (hwf : TreeWF mem root T)
    (h : ∀ path, IsDirPath path → tableAt mem' root path = tableAt mem root path) :
    TreeWF mem' root T where
  frames_lt := hwf.frames_lt
  reach_mem path p hpath hp := hwf.reach_mem path p hpath (by rwa [← h path hpath])
  reach_inj path path' p hpath hpath' hp hp' := by
    rw [h path hpath] at hp
    rw [h path' hpath'] at hp'
    exact hwf.reach_inj path path' p hpath hpath' hp hp'

section Effects

variable {mem : ByteMem} {root : PhysPageNum} {T : List PhysPageNum}

/-! ### Zeroing a frame that is not a table -/

theorem TreeWF.tableAt_fill (hwf : TreeWF mem root T) {f : PhysPageNum} (hf : f ∉ T)
    (hflt : f.val < 2 ^ 44) {path : List Nat} (hpath : IsDirPath path) :
    tableAt (mem.fill f.base pageSize 0) root path = tableAt mem root path := by
  refine tableAt_congr path root fun pre j post q hs hq => ?_
  obtain ⟨hpre, hj, -⟩ := hpath.of_split hs
  have hqT := hwf.reach_mem pre q hpre hq
  exact entryAt_fill_other mem hflt (hwf.frames_lt q hqT) (fun h => hf (h ▸ hqT)) hj

theorem TreeWF.fill (hwf : TreeWF mem root T) {f : PhysPageNum} (hf : f ∉ T)
    (hflt : f.val < 2 ^ 44) : TreeWF (mem.fill f.base pageSize 0) root T :=
  hwf.of_walks fun _ hpath => hwf.tableAt_fill hf hflt hpath

theorem TreeWF.lookup_fill (hwf : TreeWF mem root T) {f : PhysPageNum} (hf : f ∉ T)
    (hflt : f.val < 2 ^ 44) (vpn : VirtPageNum) :
    lookup (mem.fill f.base pageSize 0) root vpn = lookup mem root vpn := by
  refine lookup_congr (hwf.tableAt_fill hf hflt (isDirPath_dirPath vpn)) fun p hp => ?_
  have hpT := hwf.reach_mem _ p (isDirPath_dirPath vpn) hp
  exact entryAt_fill_other mem hflt (hwf.frames_lt p hpT) (fun h => hf (h ▸ hpT))
    (leafIdx_lt vpn)

/-! ### Writing an entry of a table -/

/-- A write to entry `i` of the table at `w` leaves every walk alone that does not pass
through that entry. -/
theorem TreeWF.tableAt_writeLE (hwf : TreeWF mem root T) {w : List Nat} {p : PhysPageNum}
    {i : Nat} (hw : IsDirPath w) (hp : tableAt mem root w = some p) (hi : i < 512) (v : Nat)
    {path : List Nat} (hpath : IsDirPath path) (hnot : ¬ w ++ [i] <+: path) :
    tableAt (mem.writeLE (p.pteAddr i) 8 v) root path = tableAt mem root path := by
  refine tableAt_congr path root fun pre j post q hs hq => ?_
  obtain ⟨hpre, hj, -⟩ := hpath.of_split hs
  have hqT := hwf.reach_mem pre q hpre hq
  have hpT := hwf.reach_mem w p hw hp
  refine entryAt_writeLE_other mem (hwf.frames_lt p hpT) (hwf.frames_lt q hqT) hi hj ?_ v
  by_cases hpq : p = q
  · -- the walk reads table `p` only at the path `w`, so at an index other than `i`
    subst hpq
    have hw' : pre = w := hwf.reach_inj pre w p hpre hw hq hp
    subst hw'
    refine .inr fun hij => hnot ⟨post, ?_⟩
    simp [hs, hij]
  · exact .inl hpq

/-! ### Writing a leaf entry -/

theorem TreeWF.tableAt_writeLeaf (hwf : TreeWF mem root T) {vpn : VirtPageNum}
    {p : PhysPageNum} (hp : tableAt mem root (dirPath vpn) = some p) (v : Nat)
    {path : List Nat} (hpath : IsDirPath path) :
    tableAt (mem.writeLE (p.pteAddr (leafIdx vpn)) 8 v) root path = tableAt mem root path := by
  refine hwf.tableAt_writeLE (isDirPath_dirPath vpn) hp (leafIdx_lt vpn) v hpath fun h => ?_
  -- a leaf entry is three indexes deep, below every table
  have hlen := h.length_le
  have := hpath.1
  simp [dirPath] at hlen
  omega

theorem TreeWF.writeLeaf (hwf : TreeWF mem root T) {vpn : VirtPageNum} {p : PhysPageNum}
    (hp : tableAt mem root (dirPath vpn) = some p) (v : Nat) :
    TreeWF (mem.writeLE (p.pteAddr (leafIdx vpn)) 8 v) root T :=
  hwf.of_walks fun _ hpath => hwf.tableAt_writeLeaf hp v hpath

/-- Writing the leaf entry of `vpn` changes what `vpn` maps to and nothing else. -/
theorem TreeWF.lookup_writeLeaf (hwf : TreeWF mem root T) {vpn : VirtPageNum}
    {p : PhysPageNum} (hp : tableAt mem root (dirPath vpn) = some p) {e : PageTableEntry}
    (he : e.bits < 2 ^ 64) (hv : vpn.val < 2 ^ 27) {vpn' : VirtPageNum}
    (hv' : vpn'.val < 2 ^ 27) :
    lookup (mem.writeLE (p.pteAddr (leafIdx vpn)) 8 e.bits) root vpn' =
      if vpn' = vpn then e.mapping else lookup mem root vpn' := by
  have hpath := isDirPath_dirPath vpn
  by_cases heq : vpn' = vpn
  · subst heq
    rw [if_pos rfl, lookup, hwf.tableAt_writeLeaf hp _ hpath, hp, Option.bind_some,
      entryAt_writeLE_same _ _ _ he]
  rw [if_neg heq]
  refine lookup_congr (hwf.tableAt_writeLeaf hp _ (isDirPath_dirPath vpn')) fun q hq => ?_
  have hpT := hwf.reach_mem _ p hpath hp
  have hqT := hwf.reach_mem _ q (isDirPath_dirPath vpn') hq
  refine entryAt_writeLE_other mem (hwf.frames_lt p hpT) (hwf.frames_lt q hqT)
    (leafIdx_lt vpn) (leafIdx_lt vpn') ?_ _
  by_cases hpq : p = q
  · -- one leaf table means one directory path, so the leaf indexes differ
    subst hpq
    have hdir := hwf.reach_inj _ _ p hpath (isDirPath_dirPath vpn') hp hq
    refine .inr fun hleaf => heq (VirtPageNum.eq_of_indexes_eq hv' hv ?_)
    rw [indexes_eq_dirPath, indexes_eq_dirPath, hdir, hleaf]
  · exact .inl hpq

/-! ### Linking a zeroed frame behind an invalid directory entry -/

/-- Where `find_pte_create` links a new table: entry `i` of the table `p` at path `w` is
invalid, and `f` is a zeroed frame that is not a table yet. -/
structure LinkSite (mem : ByteMem) (root : PhysPageNum) (T : List PhysPageNum) (w : List Nat)
    (p : PhysPageNum) (i : Nat) (f : PhysPageNum) : Prop where
  wf : TreeWF mem root T
  path : IsDirPath (w ++ [i])
  table : tableAt mem root w = some p
  invalid : child mem p i = none
  fresh : f ∉ T
  lt : f.val < 2 ^ 44
  zero : ∀ j < 512, entryAt mem f j = PageTableEntry.empty

namespace LinkSite

variable {w : List Nat} {p f : PhysPageNum} {i : Nat} (hs : LinkSite mem root T w p i f)
include hs

theorem table_path : IsDirPath w := hs.path.of_append

theorem table_mem : p ∈ T := hs.wf.reach_mem w p hs.table_path hs.table

theorem table_ne : p ≠ f := fun h => hs.fresh (h ▸ hs.table_mem)

theorem index_lt : i < 512 := (hs.path.of_split (show w ++ [i] = w ++ i :: [] from rfl)).2.1

/-- The new table stays zeroed after the link is written. -/
theorem entryAt_new {j : Nat} (hj : j < 512) :
    entryAt (mem.writeLE (p.pteAddr i) 8 (PageTableEntry.new f PTEFlags.V).bits) f j =
      PageTableEntry.empty := by
  rw [entryAt_writeLE_other mem (hs.wf.frames_lt p hs.table_mem) hs.lt hs.index_lt hj
    (.inl hs.table_ne), hs.zero j hj]

/-- Walks that do not pass through the new entry are unchanged. -/
theorem tableAt_of_not_through {path : List Nat} (hpath : IsDirPath path)
    (hnot : ¬ w ++ [i] <+: path) :
    tableAt (mem.writeLE (p.pteAddr i) 8 (PageTableEntry.new f PTEFlags.V).bits) root path =
      tableAt mem root path :=
  hs.wf.tableAt_writeLE hs.table_path hs.table hs.index_lt _ hpath hnot

/-- The walk through the new entry reaches the new table. -/
theorem tableAt_self :
    tableAt (mem.writeLE (p.pteAddr i) 8 (PageTableEntry.new f PTEFlags.V).bits) root
      (w ++ [i]) = some f := by
  have hnot : ¬ w ++ [i] <+: w := fun h => by simpa using h.length_le
  rw [tableAt_append, hs.tableAt_of_not_through hs.table_path hnot, hs.table]
  simp [child, entryAt_writeLE_same _ _ _ (PageTableEntry.new_bits_lt hs.lt _),
    PageTableEntry.new_V_isValid hs.lt, PageTableEntry.new_ppn hs.lt]

/-- Walks below the new table stop at its invalid entries. -/
theorem tableAt_below {j : Nat} (hj : j < 512) (rest : List Nat) :
    tableAt (mem.writeLE (p.pteAddr i) 8 (PageTableEntry.new f PTEFlags.V).bits) root
      (w ++ [i] ++ j :: rest) = none := by
  rw [tableAt_append, hs.tableAt_self]
  simp [child, hs.entryAt_new hj]

/-- Before the link, no walk passes through the entry. -/
theorem tableAt_before (rest : List Nat) : tableAt mem root (w ++ [i] ++ rest) = none := by
  rw [tableAt_append, tableAt_append, hs.table]
  simp [hs.invalid]

/-- A walk after the link either is the new one, reaching `f`, or was there before. -/
theorem reach_cases {path : List Nat} {q : PhysPageNum} (hpath : IsDirPath path)
    (hq : tableAt (mem.writeLE (p.pteAddr i) 8 (PageTableEntry.new f PTEFlags.V).bits) root
      path = some q) :
    (path = w ++ [i] ∧ q = f) ∨ (¬ w ++ [i] <+: path ∧ tableAt mem root path = some q) := by
  by_cases hpre : w ++ [i] <+: path
  · obtain ⟨rest, rfl⟩ := hpre
    cases rest with
    | nil =>
      rw [List.append_nil, hs.tableAt_self] at hq
      exact .inl ⟨List.append_nil _, (Option.some.inj hq).symm⟩
    | cons j rest =>
      have hj : j < 512 := hpath.2 j (by simp)
      rw [hs.tableAt_below hj] at hq
      cases hq
  · exact .inr ⟨hpre, by rwa [← hs.tableAt_of_not_through hpath hpre]⟩

/-- The link keeps the tree, with `f` added to its frames. -/
theorem treeWF :
    TreeWF (mem.writeLE (p.pteAddr i) 8 (PageTableEntry.new f PTEFlags.V).bits) root
      (T ++ [f]) where
  frames_lt q hq := by
    rcases List.mem_append.mp hq with hq | hq
    · exact hs.wf.frames_lt q hq
    · simp only [List.mem_singleton] at hq
      exact hq ▸ hs.lt
  reach_mem path q hpath hq := by
    rcases hs.reach_cases hpath hq with ⟨-, rfl⟩ | ⟨-, hold⟩
    · simp
    · exact List.mem_append_left _ (hs.wf.reach_mem path q hpath hold)
  reach_inj path path' q hpath hpath' hq hq' := by
    rcases hs.reach_cases hpath hq with ⟨he, hqf⟩ | ⟨-, hold⟩ <;>
      rcases hs.reach_cases hpath' hq' with ⟨he', hqf'⟩ | ⟨-, hold'⟩
    · rw [he, he']
    · exact absurd (hqf ▸ hs.wf.reach_mem _ _ hpath' hold') hs.fresh
    · exact absurd (hqf' ▸ hs.wf.reach_mem _ _ hpath hold) hs.fresh
    · exact hs.wf.reach_inj path path' q hpath hpath' hold hold'

/-- The link changes no mapping: the new table is empty, and the walks that pass through it
stopped at the invalid entry before. -/
theorem lookup_eq (vpn : VirtPageNum) :
    lookup (mem.writeLE (p.pteAddr i) 8 (PageTableEntry.new f PTEFlags.V).bits) root vpn =
      lookup mem root vpn := by
  have hpath := isDirPath_dirPath vpn
  by_cases hpre : w ++ [i] <+: dirPath vpn
  · obtain ⟨rest, hrest⟩ := hpre
    have hbefore : lookup mem root vpn = none := by
      rw [lookup, ← hrest, hs.tableAt_before]
      rfl
    rw [hbefore, lookup, ← hrest]
    cases rest with
    | nil =>
      rw [List.append_nil, hs.tableAt_self, Option.bind_some,
        hs.entryAt_new (leafIdx_lt vpn)]
      simp [PageTableEntry.mapping]
    | cons j rest =>
      have hj : j < 512 := hpath.2 j (by simp [← hrest])
      rw [hs.tableAt_below hj]
      rfl
  · refine lookup_congr (hs.tableAt_of_not_through hpath hpre) fun q hq => ?_
    have hqT := hs.wf.reach_mem _ q hpath hq
    refine entryAt_writeLE_other mem (hs.wf.frames_lt p hs.table_mem) (hs.wf.frames_lt q hqT)
      hs.index_lt (leafIdx_lt vpn) (.inl fun hpq => ?_) _
    -- a leaf table is two indexes deep, the linked table at most one
    subst hpq
    have hdir := hs.wf.reach_inj _ _ p hpath hs.table_path hq hs.table
    have hlen := hs.path.1
    simp [← hdir, dirPath] at hlen

end LinkSite

end Effects

/-! ## The table in the machine -/

/-- What a page table keeps in the machine: its frames are distinct and form the tree rooted at
its root, and the frame allocator owns all of them. -/
structure Valid (pt : PageTable) (m : Machine) : Prop where
  tree : TreeWF m.mem pt.rootPpn pt.frames
  owned : ∀ p ∈ pt.frames, m.frameAllocator.Owns p.val
  nodup : pt.frames.Nodup
  alloc : m.frameAllocator.Inv

/-- A frame the allocator hands out is none of the table's frames. -/
theorem Valid.fresh {pt : PageTable} {m : Machine} (hv : pt.Valid m) {f : PhysPageNum}
    (hf : ¬ m.frameAllocator.Owns f.val) : f ∉ pt.frames :=
  fun hmem => hf (hv.owned f hmem)

/-- Memory that agrees on every entry of the table's frames holds the same tree and the
same mapping. -/
theorem TreeWF.of_entries {mem mem' : ByteMem} {root : PhysPageNum} {T : List PhysPageNum}
    (hwf : TreeWF mem root T) (hagree : ∀ p ∈ T, ∀ j < 512, entryAt mem' p j = entryAt mem p j) :
    TreeWF mem' root T ∧ ∀ vpn, lookup mem' root vpn = lookup mem root vpn := by
  -- every entry a walk reads lies in one of the tables
  have hwalk : ∀ path, IsDirPath path → tableAt mem' root path = tableAt mem root path :=
    fun path hpath => tableAt_congr path root fun pre j post q hs hq => by
      obtain ⟨hpre, hj, -⟩ := hpath.of_split hs
      exact hagree q (hwf.reach_mem pre q hpre hq) j hj
  refine ⟨hwf.of_walks hwalk, fun vpn => lookup_congr (hwalk _ (isDirPath_dirPath vpn))
    fun p hp => hagree p (hwf.reach_mem _ p (isDirPath_dirPath vpn) hp) _ (leafIdx_lt vpn)⟩

/-- A step that writes none of the table's frames keeps the table and its mapping. -/
theorem Valid.of_step {pt : PageTable} {m m' : Machine} {W : List PhysPageNum}
    (hv : pt.Valid m) (hs : Machine.Step W m m') (hW : ∀ q ∈ W, q ∉ pt.frames)
    (hinv : m'.frameAllocator.Inv) :
    pt.Valid m' ∧ ∀ vpn, lookup m'.mem pt.rootPpn vpn = lookup m.mem pt.rootPpn vpn := by
  have hagree : ∀ p ∈ pt.frames, ∀ j < 512, entryAt m'.mem p j = entryAt m.mem p j := by
    intro p hp j hj
    have hne : ∀ w ∈ W, w.val ≠ p.val := fun w hw he =>
      hW w hw (by rwa [show w = p from by cases w; cases p; simp_all])
    simp only [entryAt, readPte, pteAddr_eq (hv.tree.frames_lt p hp)]
    congr 1
    refine ByteMem.readLE_congr fun i hi => ?_
    rw [show p.val * 4096 + 8 * j + i = p.val * 4096 + (8 * j + i) by omega]
    exact hs.frame_eq hne (show 8 * j + i < 4096 by omega)
  obtain ⟨htree, hl⟩ := hv.tree.of_entries hagree
  exact ⟨⟨htree, fun q hq => hs.owns _ (hv.owned q hq), hv.nodup, hinv⟩, hl⟩

/-- From `(pt, m)` to `(pt', m')`: the table kept its frames and gained only frames that
were free, and nothing but the table's frames was written. -/
structure Grows (pt pt' : PageTable) (m m' : Machine) : Prop where
  frames_le : pt.frames <+: pt'.frames
  step : Machine.Step pt'.frames m m'
  fresh : ∀ q ∈ pt'.frames, q ∈ pt.frames ∨ ¬ m.frameAllocator.Owns q.val

theorem Grows.refl (pt : PageTable) (m : Machine) : Grows pt pt m m :=
  ⟨List.prefix_refl _, Machine.Step.refl _ _, fun _ hq => .inl hq⟩

theorem Grows.trans {pt pt' pt'' : PageTable} {m m' m'' : Machine} (h : Grows pt pt' m m')
    (h' : Grows pt' pt'' m' m'') : Grows pt pt'' m m'' where
  frames_le := h.frames_le.trans h'.frames_le
  step := (h.step.trans h'.step).mono fun q hq => by
    rcases List.mem_append.mp hq with hq | hq
    · exact h'.frames_le.subset hq
    · exact hq
  fresh q hq := by
    rcases h'.fresh q hq with hq' | hno
    · exact h.fresh q hq'
    · exact .inr fun hown => hno (h.step.owns _ hown)

/-- Writing an entry of one of the table's own frames. -/
theorem Grows.writeLE {pt : PageTable} {m : Machine} (hv : pt.Valid m) {p : PhysPageNum}
    (hp : p ∈ pt.frames) {i : Nat} (hi : i < 512) (v : Nat) :
    Grows pt pt m { m with mem := m.mem.writeLE (p.pteAddr i) 8 v } :=
  ⟨List.prefix_refl _, (step_writeLE m (hv.tree.frames_lt p hp) hi v).mono
    (fun q hq => by rw [List.mem_singleton] at hq; exact hq ▸ hp), fun _ hq => .inl hq⟩

/-- The frames a table gained were taken from the allocator. -/
theorem Grows.takes {pt pt' : PageTable} {m m' : Machine} (hg : Grows pt pt' m m')
    (hv' : pt'.Valid m') : ∃ P, pt'.frames = pt.frames ++ P ∧ Machine.Takes pt.frames P m m' := by
  obtain ⟨P, hP⟩ := hg.frames_le
  have hnd : (pt.frames ++ P).Nodup := hP ▸ hv'.nodup
  refine ⟨P, hP.symm, ⟨hg.step.mono fun q hq => hP ▸ hq, hnd.of_append_right, fun q hq => ?_,
    fun q hq => hv'.owned q (hP ▸ List.mem_append_right _ hq)⟩⟩
  -- a new frame is not an old one, so it was free
  rcases hg.fresh q (hP ▸ List.mem_append_right _ hq) with hold | hno
  · exact absurd hq (List.disjoint_of_nodup_append hnd hold)
  · exact hno

/-- One directory level of `find_pte_create` on a valid entry only reads it. -/
theorem findPteCreateStep_of_valid (pt : PageTable) (m : Machine) {p : PhysPageNum} {i : Nat}
    (hvalid : (entryAt m.mem p i).isValid) :
    (findPteCreateStep pt p i).run m = .ok (((entryAt m.mem p i).ppn, pt), m) := by
  simp [findPteCreateStep, entryAt] at hvalid ⊢
  simp [hvalid]
  rfl

/-- One directory level of `find_pte_create` on an invalid entry, with no frame free, panics. -/
theorem findPteCreateStep_of_free {pt : PageTable} {m : Machine} (hi : m.frameAllocator.Inv)
    (hfree : m.frameAllocator.free = 0) {p : PhysPageNum} {i : Nat}
    (hvalid : (entryAt m.mem p i).isValid = false) :
    (findPteCreateStep pt p i).run m = .error .unwrapNone := by
  simp only [entryAt] at hvalid
  simp [findPteCreateStep, hvalid, frameAlloc_none hi hfree]
  rfl

/-- One directory level of `find_pte_create` keeps the table valid and its mapping, and
returns the table the extended path reaches. -/
theorem findPteCreateStep_spec {pt : PageTable} {m : Machine} (hv : pt.Valid m)
    {w : List Nat} {p : PhysPageNum} {i : Nat} (hw : IsDirPath (w ++ [i]))
    (hp : tableAt m.mem pt.rootPpn w = some p) (hfree : 0 < m.frameAllocator.free) :
    ∃ q pt' m', (findPteCreateStep pt p i).run m = .ok ((q, pt'), m') ∧ pt'.Valid m' ∧
      pt'.rootPpn = pt.rootPpn ∧ tableAt m'.mem pt.rootPpn (w ++ [i]) = some q ∧
      (∀ vpn, lookup m'.mem pt.rootPpn vpn = lookup m.mem pt.rootPpn vpn) ∧
      m.frameAllocator.free ≤ m'.frameAllocator.free + 1 ∧ Grows pt pt' m m' := by
  by_cases hvalid : (entryAt m.mem p i).isValid
  · -- the entry already points to a table
    refine ⟨(entryAt m.mem p i).ppn, pt, m, findPteCreateStep_of_valid pt m hvalid, hv, rfl, ?_,
      fun _ => rfl, by omega, Grows.refl pt m⟩
    rw [tableAt_append, hp]
    simp [child, hvalid]
  · -- a fresh zeroed frame is linked behind the entry
    obtain ⟨f, fa', hrun, hflt, hno, hyes, hoth, hinv, hcount⟩ := frameAlloc_some hv.alloc hfree
    have hfT : f ∉ pt.frames := hv.fresh hno
    have hwp : IsDirPath w := hw.of_append
    have hpT : p ∈ pt.frames := hv.tree.reach_mem w p hwp hp
    have hs : LinkSite (m.mem.fill f.base pageSize 0) pt.rootPpn pt.frames w p i f :=
      { wf := hv.tree.fill hfT hflt
        path := hw
        table := by rw [hv.tree.tableAt_fill hfT hflt hwp, hp]
        invalid := by
          have hi : i < 512 := (hw.of_split (show w ++ [i] = w ++ i :: [] from rfl)).2.1
          rw [child, entryAt_fill_other m.mem hflt (hv.tree.frames_lt p hpT)
            (fun h => hfT (h ▸ hpT)) hi]
          simp [hvalid]
        fresh := hfT
        lt := hflt
        zero := fun j hj => entryAt_fill_same m.mem f hj }
    have hown : ∀ x, m.frameAllocator.Owns x → fa'.Owns x :=
      fun x hx => (hoth x fun h => hno (h ▸ hx)).mpr hx
    refine ⟨f, { pt with frames := pt.frames ++ [f] },
      ⟨(m.mem.fill f.base pageSize 0).writeLE (p.pteAddr i) 8
        (PageTableEntry.new f PTEFlags.V).bits, fa'⟩, ?_, ?_, rfl, hs.tableAt_self, ?_,
        by dsimp only; omega, ⟨List.prefix_append _ _, ?_, fun q hq => ?_⟩⟩
    · simp [findPteCreateStep, entryAt] at hvalid ⊢
      simp [hvalid, hrun, unwrap, writePte,
        readPte_writeLE_same _ _ (PageTableEntry.new_bits_lt hflt _), PageTableEntry.new_ppn hflt]
      rfl
    · refine ⟨hs.treeWF, fun q hq => ?_, List.nodup_append.mpr ⟨hv.nodup, List.nodup_singleton f,
        fun a ha b hb => ?_⟩, hinv⟩
      · rcases List.mem_append.mp hq with hq | hq
        · have hown := hv.owned q hq
          exact (hoth q.val fun h => hno (h ▸ hown)).mpr hown
        · rw [List.mem_singleton] at hq
          exact hq ▸ hyes
      · -- the old frames are owned, the new one was not
        rw [List.mem_singleton] at hb
        rintro rfl
        exact hfT (hb ▸ ha)
    · intro vpn
      rw [hs.lookup_eq vpn, hv.tree.lookup_fill hfT hflt vpn]
    · -- the new frame is zeroed, then the entry of `p` is written
      refine ((Machine.step_fill hflt hown).trans (step_writeLE _ (hv.tree.frames_lt p hpT)
        hs.index_lt _)).mono fun q hq => ?_
      simp only [List.singleton_append, List.mem_cons, List.not_mem_nil, or_false] at hq
      rcases hq with rfl | rfl
      · exact List.mem_append_right _ (List.mem_singleton_self _)
      · exact List.mem_append_left _ hpT
    · rcases List.mem_append.mp hq with hq | hq
      · exact .inl hq
      · rw [List.mem_singleton] at hq
        exact .inr (hq ▸ hno)

/-- A run of one directory level of `find_pte_create` that returns does what
`findPteCreateStep_spec` says: with no frame free, only an entry that is already valid lets it
return. -/
theorem findPteCreateStep_ok {pt : PageTable} {m : Machine} (hv : pt.Valid m)
    {w : List Nat} {p : PhysPageNum} {i : Nat} (hw : IsDirPath (w ++ [i]))
    (hp : tableAt m.mem pt.rootPpn w = some p) {q : PhysPageNum} {pt' : PageTable}
    {m' : Machine} (h : (findPteCreateStep pt p i).run m = .ok ((q, pt'), m')) :
    pt'.Valid m' ∧ pt'.rootPpn = pt.rootPpn ∧ tableAt m'.mem pt.rootPpn (w ++ [i]) = some q ∧
      (∀ vpn, lookup m'.mem pt.rootPpn vpn = lookup m.mem pt.rootPpn vpn) ∧
      m.frameAllocator.free ≤ m'.frameAllocator.free + 1 ∧ Grows pt pt' m m' := by
  rcases Nat.eq_zero_or_pos m.frameAllocator.free with hfree | hfree
  · by_cases hvalid : (entryAt m.mem p i).isValid
    · rw [findPteCreateStep_of_valid pt m hvalid] at h
      cases h
      refine ⟨hv, rfl, ?_, fun _ => rfl, by omega, Grows.refl pt m⟩
      rw [tableAt_append, hp]
      simp [child, hvalid]
    · rw [findPteCreateStep_of_free hv.alloc hfree (by simpa using hvalid)] at h
      cases h
  · -- a frame is free, so the run is the one `findPteCreateStep_spec` gives
    obtain ⟨q₀, pt₀, m₀, hrun, hfacts⟩ := findPteCreateStep_spec hv hw hp hfree
    rw [hrun] at h
    cases h
    exact hfacts

theorem findPteCreateLoop_two (pt : PageTable) (idx : Nat) (rest : List Nat) {i : Nat}
    (hi : i = 2) (ppn : PhysPageNum) :
    findPteCreateLoop pt (idx :: rest) i ppn = pure (some (ppn.pteAddr idx), pt) := by
  subst hi
  simp [findPteCreateLoop]

theorem findPteCreateLoop_step (pt : PageTable) (idx : Nat) (rest : List Nat) {i : Nat}
    (hi : i ≠ 2) (ppn : PhysPageNum) :
    findPteCreateLoop pt (idx :: rest) i ppn =
      findPteCreateStep pt ppn idx >>= fun r => findPteCreateLoop r.2 rest (i + 1) r.1 := by
  simp [findPteCreateLoop, hi]

/-- `find_pte_create` returns the leaf entry of `vpn` in the table its directory path now
reaches, keeping the table valid and its mapping, with at most two frames allocated. -/
theorem findPteCreate_spec {pt : PageTable} {m : Machine} (hv : pt.Valid m) (vpn : VirtPageNum)
    (hfree : 2 ≤ m.frameAllocator.free) :
    ∃ p pt' m', (pt.findPteCreate vpn).run m = .ok ((some (p.pteAddr (leafIdx vpn)), pt'), m') ∧
      pt'.Valid m' ∧ pt'.rootPpn = pt.rootPpn ∧
      tableAt m'.mem pt.rootPpn (dirPath vpn) = some p ∧
      (∀ vpn', lookup m'.mem pt.rootPpn vpn' = lookup m.mem pt.rootPpn vpn') ∧
      m.frameAllocator.free ≤ m'.frameAllocator.free + 2 ∧ Grows pt pt' m m' := by
  obtain ⟨i0, i1, hd⟩ : ∃ i0 i1, dirPath vpn = [i0, i1] := ⟨_, _, rfl⟩
  have hpath : IsDirPath [i0, i1] := hd ▸ isDirPath_dirPath vpn
  -- the first level, from the root
  obtain ⟨q1, pt1, m1, h1, hv1, hr1, ht1, hl1, hf1, hg1⟩ :=
    findPteCreateStep_spec hv (show IsDirPath ([] ++ [i0]) from hpath.of_append)
      (tableAt_nil m.mem pt.rootPpn) (by omega)
  -- the second level, from the table the first one returned
  obtain ⟨q2, pt2, m2, h2, hv2, hr2, ht2, hl2, hf2, hg2⟩ :=
    findPteCreateStep_spec hv1 (show IsDirPath ([i0] ++ [i1]) from hpath)
      (by rw [hr1]; exact ht1) (by omega)
  rw [hr1] at ht2 hl2
  refine ⟨q2, pt2, m2, ?_, hv2, hr2.trans hr1, hd ▸ ht2,
    fun v => (hl2 v).trans (hl1 v), by omega, hg1.trans hg2⟩
  rw [findPteCreate, indexes_eq_dirPath, hd]
  show (findPteCreateLoop pt [i0, i1, leafIdx vpn] 0 pt.rootPpn).run m = _
  rw [findPteCreateLoop_step _ _ _ (by decide), StateT.run_bind_of_ok h1,
    findPteCreateLoop_step _ _ _ (by decide), StateT.run_bind_of_ok h2,
    findPteCreateLoop_two _ _ _ rfl]
  rfl

/-- A run of `find_pte_create` that returns does what `findPteCreate_spec` says. -/
theorem findPteCreate_ok {pt : PageTable} {m : Machine} (hv : pt.Valid m) {vpn : VirtPageNum}
    {a : Option Nat} {pt' : PageTable} {m' : Machine}
    (h : (pt.findPteCreate vpn).run m = .ok ((a, pt'), m')) :
    ∃ p, a = some (p.pteAddr (leafIdx vpn)) ∧ pt'.Valid m' ∧ pt'.rootPpn = pt.rootPpn ∧
      tableAt m'.mem pt.rootPpn (dirPath vpn) = some p ∧
      (∀ vpn', lookup m'.mem pt.rootPpn vpn' = lookup m.mem pt.rootPpn vpn') ∧
      m.frameAllocator.free ≤ m'.frameAllocator.free + 2 ∧ Grows pt pt' m m' := by
  obtain ⟨i0, i1, hd⟩ : ∃ i0 i1, dirPath vpn = [i0, i1] := ⟨_, _, rfl⟩
  have hpath : IsDirPath [i0, i1] := hd ▸ isDirPath_dirPath vpn
  rw [findPteCreate, indexes_eq_dirPath, hd] at h
  change (findPteCreateLoop pt [i0, i1, leafIdx vpn] 0 pt.rootPpn).run m = _ at h
  -- the two directory levels, then the leaf
  rw [findPteCreateLoop_step _ _ _ (by decide)] at h
  obtain ⟨⟨q1, pt1⟩, m1, h1, h⟩ := StateT.run_bind_eq_ok h
  rw [findPteCreateLoop_step _ _ _ (by decide)] at h
  obtain ⟨⟨q2, pt2⟩, m2, h2, h⟩ := StateT.run_bind_eq_ok h
  rw [findPteCreateLoop_two _ _ _ rfl] at h
  cases h
  obtain ⟨hv1, hr1, ht1, hl1, hf1, hg1⟩ := findPteCreateStep_ok hv
    (show IsDirPath ([] ++ [i0]) from hpath.of_append) (tableAt_nil m.mem pt.rootPpn) h1
  obtain ⟨hv2, hr2, ht2, hl2, hf2, hg2⟩ := findPteCreateStep_ok hv1
    (show IsDirPath ([i0] ++ [i1]) from hpath) (by rw [hr1]; exact ht1) h2
  rw [hr1] at ht2 hl2
  exact ⟨q2, rfl, hv2, hr2.trans hr1, hd ▸ ht2, fun v => (hl2 v).trans (hl1 v), by omega,
    hg1.trans hg2⟩

/-- A zeroed frame alone is a valid tree that maps nothing. -/
theorem treeWF_fresh {mem : ByteMem} {f : PhysPageNum} (hflt : f.val < 2 ^ 44)
    (hzero : ∀ j < 512, entryAt mem f j = PageTableEntry.empty) : TreeWF mem f [f] where
  frames_lt q hq := by
    rw [List.mem_singleton] at hq
    exact hq ▸ hflt
  reach_mem path q hpath hq := by
    rw [(tableAt_of_zero hzero hpath.2 hq).2]
    exact List.mem_singleton_self f
  reach_inj path path' q hpath hpath' hq hq' := by
    rw [(tableAt_of_zero hzero hpath.2 hq).1, (tableAt_of_zero hzero hpath'.2 hq').1]

/-- `PageTable::new` gives a valid table that maps nothing, using one frame. -/
theorem new_spec {m : Machine} (hfa : m.frameAllocator.Inv) (hfree : 0 < m.frameAllocator.free) :
    ∃ pt m', PageTable.new.run m = .ok (pt, m') ∧ pt.Valid m' ∧
      (∀ vpn, lookup m'.mem pt.rootPpn vpn = none) ∧
      m'.frameAllocator.free + 1 = m.frameAllocator.free ∧
      Machine.Step pt.frames m m' ∧ ∀ q ∈ pt.frames, ¬ m.frameAllocator.Owns q.val := by
  obtain ⟨f, fa', hrun, hflt, hno, hyes, hoth, hinv, hcount⟩ := frameAlloc_some hfa hfree
  have hzero : ∀ j < 512, entryAt (m.mem.fill f.base pageSize 0) f j = PageTableEntry.empty :=
    fun j hj => entryAt_fill_same m.mem f hj
  refine ⟨⟨f, [f]⟩, ⟨m.mem.fill f.base pageSize 0, fa'⟩, ?_, ?_, fun vpn => ?_, hcount,
    Machine.step_fill hflt fun x hx => (hoth x fun h => hno (h ▸ hx)).mpr hx, ?_⟩
  · simp [PageTable.new, hrun, unwrap]
    rfl
  · refine ⟨treeWF_fresh hflt hzero, fun q hq => ?_, List.nodup_singleton f, hinv⟩
    rw [List.mem_singleton] at hq
    exact hq ▸ hyes
  · -- the directory path is not empty, and every walk stops at the zeroed root
    cases ht : tableAt (m.mem.fill f.base pageSize 0) f (dirPath vpn) with
    | none => rw [lookup, ht]; rfl
    | some q =>
      have := (tableAt_of_zero hzero (dirPath_lt vpn) ht).1
      simp [dirPath] at this
  · intro q hq
    rw [List.mem_singleton] at hq
    exact hq ▸ hno

/-- A run of `PageTable::new` that returns took one free frame and gives a valid table that maps
nothing. -/
theorem new_ok {m m' : Machine} {pt : PageTable} (hfa : m.frameAllocator.Inv)
    (h : PageTable.new.run m = .ok (pt, m')) :
    pt.Valid m' ∧ (∀ vpn, lookup m'.mem pt.rootPpn vpn = none) ∧
      m'.frameAllocator.free + 1 = m.frameAllocator.free ∧
      Machine.Step pt.frames m m' ∧ ∀ q ∈ pt.frames, ¬ m.frameAllocator.Owns q.val := by
  rcases Nat.eq_zero_or_pos m.frameAllocator.free with hfree | hfree
  · rw [PageTable.new, unwrap_frameAlloc_of_free hfa hfree] at h
    cases h
  · obtain ⟨pt₀, m₀, hrun, hfacts⟩ := new_spec hfa hfree
    rw [hrun] at h
    cases h
    exact hfacts

/-- A run of `PageTable::map` that returns found the page number unmapped, mapped it to `ppn`
with `flags | V` and changed no other mapping. -/
theorem map_ok {pt pt' : PageTable} {m m' : Machine} (hv : pt.Valid m) {vpn : VirtPageNum}
    {ppn : PhysPageNum} {flags : PTEFlags} (hvpn : vpn.val < 2 ^ 27) (hppn : ppn.val < 2 ^ 44)
    (h : (pt.map vpn ppn flags).run m = .ok (pt', m')) :
    lookup m.mem pt.rootPpn vpn = none ∧ pt'.Valid m' ∧ pt'.rootPpn = pt.rootPpn ∧
      (∀ vpn', vpn'.val < 2 ^ 27 → lookup m'.mem pt.rootPpn vpn' =
        Function.update (lookup m.mem pt.rootPpn) vpn (some (ppn, flags ||| PTEFlags.V)) vpn') ∧
      m.frameAllocator.free ≤ m'.frameAllocator.free + 2 ∧ Grows pt pt' m m' := by
  obtain ⟨⟨a, pt1⟩, m1, h1, h⟩ := StateT.run_bind_eq_ok h
  obtain ⟨p, rfl, hv1, hr1, ht1, hl1, hf1, hg1⟩ := findPteCreate_ok hv h1
  have htree : TreeWF m1.mem pt.rootPpn pt1.frames := hr1 ▸ hv1.tree
  have hpT : p ∈ pt1.frames := htree.reach_mem _ p (isDirPath_dirPath vpn) ht1
  -- a leaf entry that is valid already makes `map` panic
  have hinvalid : (entryAt m1.mem p (leafIdx vpn)).isValid = false := by
    by_contra hvalid
    simp only [entryAt, Bool.not_eq_false] at hvalid
    simp [unwrap, hvalid] at h
    cases h
  simp only [entryAt] at hinvalid
  simp [unwrap, hinvalid, writePte] at h
  cases h
  refine ⟨?_, ⟨by rw [hr1]; exact htree.writeLeaf ht1 _, hv1.owned, hv1.nodup, hv1.alloc⟩, hr1,
    fun vpn' hv' => ?_, hf1, hg1.trans (Grows.writeLE hv1 hpT (leafIdx_lt vpn) _)⟩
  · rw [← hl1 vpn, lookup_of_tableAt ht1]
    simp [PageTableEntry.mapping, entryAt, hinvalid]
  · rw [htree.lookup_writeLeaf ht1 (PageTableEntry.new_bits_lt hppn _) hvpn hv',
      Function.update_apply]
    split_ifs
    · exact PageTableEntry.mapping_new hppn flags
    · exact hl1 vpn'

/-- `PageTable::map` on an unmapped page number maps it to `ppn` with `flags | V` and
changes no other mapping. -/
theorem map_spec {pt : PageTable} {m : Machine} (hv : pt.Valid m) {vpn : VirtPageNum}
    {ppn : PhysPageNum} (flags : PTEFlags) (hvpn : vpn.val < 2 ^ 27) (hppn : ppn.val < 2 ^ 44)
    (hun : lookup m.mem pt.rootPpn vpn = none) (hfree : 2 ≤ m.frameAllocator.free) :
    ∃ pt' m', (pt.map vpn ppn flags).run m = .ok (pt', m') ∧ pt'.Valid m' ∧
      pt'.rootPpn = pt.rootPpn ∧
      (∀ vpn', vpn'.val < 2 ^ 27 → lookup m'.mem pt.rootPpn vpn' =
        Function.update (lookup m.mem pt.rootPpn) vpn (some (ppn, flags ||| PTEFlags.V)) vpn') ∧
      m.frameAllocator.free ≤ m'.frameAllocator.free + 2 ∧ Grows pt pt' m m' := by
  obtain ⟨p, pt1, m1, h1, -, -, ht1, hl1, -, -⟩ := findPteCreate_spec hv vpn hfree
  -- the leaf entry is invalid: `lookup` saw nothing, and `find_pte_create` changed no mapping
  have hinvalid : (entryAt m1.mem p (leafIdx vpn)).isValid = false := by
    have hnone := (lookup_of_tableAt ht1).symm.trans ((hl1 vpn).trans hun)
    simpa using congrArg Option.isSome hnone
  -- so the run returns, and `map_ok` says what it did
  have hrun : (pt.map vpn ppn flags).run m = .ok (pt1, ⟨m1.mem.writeLE (p.pteAddr (leafIdx vpn)) 8
      (PageTableEntry.new ppn (flags ||| PTEFlags.V)).bits, m1.frameAllocator⟩) := by
    simp only [entryAt] at hinvalid
    simp [map, StateT.run_bind_of_ok h1, unwrap, hinvalid, writePte]
    rfl
  exact ⟨_, _, hrun, (map_ok hv hvpn hppn hrun).2⟩

/-- `PageTable::unmap` on a mapped page number removes its mapping and no other. -/
theorem unmap_spec {pt : PageTable} {m : Machine} (hv : pt.Valid m) {vpn : VirtPageNum}
    (hvpn : vpn.val < 2 ^ 27) (hmapped : lookup m.mem pt.rootPpn vpn ≠ none) :
    ∃ m', (pt.unmap vpn).run m = .ok ((), m') ∧ pt.Valid m' ∧
      (∀ vpn', vpn'.val < 2 ^ 27 → lookup m'.mem pt.rootPpn vpn' =
        Function.update (lookup m.mem pt.rootPpn) vpn none vpn') ∧
      m'.frameAllocator = m.frameAllocator ∧ Grows pt pt m m' := by
  obtain ⟨p, ht⟩ : ∃ p, tableAt m.mem pt.rootPpn (dirPath vpn) = some p := by
    cases ht : tableAt m.mem pt.rootPpn (dirPath vpn) with
    | none => exact absurd (by rw [lookup, ht]; rfl) hmapped
    | some p => exact ⟨p, rfl⟩
  have hvalid : (entryAt m.mem p (leafIdx vpn)).isValid = true := by
    rw [lookup_of_tableAt ht] at hmapped
    simpa [Option.ne_none_iff_isSome] using hmapped
  refine ⟨⟨m.mem.writeLE (p.pteAddr (leafIdx vpn)) 8 PageTableEntry.empty.bits,
      m.frameAllocator⟩, ?_, ⟨hv.tree.writeLeaf ht _, hv.owned, hv.nodup, hv.alloc⟩, fun vpn' hv' => ?_, rfl,
    Grows.writeLE hv (hv.tree.reach_mem _ p (isDirPath_dirPath vpn) ht) (leafIdx_lt vpn) _⟩
  · simp only [entryAt] at hvalid
    simp [unmap, findPte_eq, ht, unwrap, hvalid, writePte]
    rfl
  · rw [hv.tree.lookup_writeLeaf ht (by simp [PageTableEntry.empty]) hvpn hv',
      Function.update_apply]
    split_ifs <;> simp

/-- `PageTable::is_mapped` reports whether the page number is mapped, and changes no
mapping. -/
theorem isMapped_spec {pt : PageTable} {m : Machine} (hv : pt.Valid m) (vpn : VirtPageNum)
    (hfree : 2 ≤ m.frameAllocator.free) :
    ∃ pt' m', (pt.isMapped vpn).run m =
        .ok (((lookup m.mem pt.rootPpn vpn).isSome, pt'), m') ∧ pt'.Valid m' ∧
      pt'.rootPpn = pt.rootPpn ∧
      (∀ vpn', lookup m'.mem pt.rootPpn vpn' = lookup m.mem pt.rootPpn vpn') ∧
      m.frameAllocator.free ≤ m'.frameAllocator.free + 2 ∧ Grows pt pt' m m' := by
  obtain ⟨p, pt1, m1, h1, hv1, hr1, ht1, hl1, hf1, hg1⟩ := findPteCreate_spec hv vpn hfree
  refine ⟨pt1, m1, ?_, hv1, hr1, hl1, hf1, hg1⟩
  have hsome : (lookup m.mem pt.rootPpn vpn).isSome = (readPte m1.mem (p.pteAddr (leafIdx vpn))).isValid := by
    rw [← hl1 vpn, lookup_of_tableAt ht1, PageTableEntry.mapping_isSome]
    rfl
  simp [isMapped, StateT.run_bind_of_ok h1, unwrap, hsome]
  rfl

/-! ## The abstract page table and the refinement -/

/-- What a page table stands for: a finite map from page numbers to a frame and flags. -/
abbrev AbsPageTable := VirtPageNum → Option (PhysPageNum × PTEFlags)

/-- The calls made on a page table. -/
inductive Op
  | map (vpn : VirtPageNum) (ppn : PhysPageNum) (flags : PTEFlags)
  | unmap (vpn : VirtPageNum)
  | isMapped (vpn : VirtPageNum)
  deriving DecidableEq, Repr

namespace Op

/-- The call on the table; `unmap` and `is_mapped` leave the table's own fields alone. -/
def run (pt : PageTable) : Op → KernelM Machine PageTable
  | map vpn ppn flags => pt.map vpn ppn flags
  | unmap vpn => do pt.unmap vpn; pure pt
  | isMapped vpn => do let r ← pt.isMapped vpn; pure r.2

/-- The same call on the finite map. -/
def absStep (a : AbsPageTable) : Op → AbsPageTable
  | map vpn ppn flags => Function.update a vpn (some (ppn, flags ||| PTEFlags.V))
  | unmap vpn => Function.update a vpn none
  | isMapped _ => a

/-- The calls the refinement covers on the map `a`: page numbers of 27 bits and frames of
44, `map` only on an unmapped page number and `unmap` only on a mapped one. -/
def Legal (a : AbsPageTable) : Op → Prop
  | map vpn ppn _ => vpn.val < 2 ^ 27 ∧ ppn.val < 2 ^ 44 ∧ a vpn = none
  | unmap vpn => vpn.val < 2 ^ 27 ∧ a vpn ≠ none
  | isMapped vpn => vpn.val < 2 ^ 27

instance (a : AbsPageTable) (op : Op) : Decidable (op.Legal a) := by
  cases op <;> unfold Legal <;> infer_instance

end Op

/-- A sequence of calls, each on the table the one before returned. -/
def runOps (pt : PageTable) (ops : List Op) : KernelM Machine PageTable := ops.foldlM Op.run pt

/-- The same calls on the finite map. -/
def absRun (a : AbsPageTable) (ops : List Op) : AbsPageTable := ops.foldl Op.absStep a

theorem absRun_concat (a : AbsPageTable) (ops : List Op) (op : Op) :
    absRun a (ops ++ [op]) = op.absStep (absRun a ops) := by
  simp [absRun]

/-- Every call is legal on the map the calls before it leave. -/
def LegalRun (a : AbsPageTable) (ops : List Op) : Prop :=
  ∀ k (hk : k < ops.length), ops[k].Legal (absRun a (ops.take k))

instance (a : AbsPageTable) (ops : List Op) : Decidable (LegalRun a ops) := by
  unfold LegalRun
  infer_instance

/-- One legal call keeps the table valid and refines the same call on the map. -/
theorem Op.run_spec {pt : PageTable} {m : Machine} {a : AbsPageTable} (hv : pt.Valid m)
    {op : Op} (hlegal : op.Legal a) (hfree : 2 ≤ m.frameAllocator.free)
    (hrel : ∀ vpn, vpn.val < 2 ^ 27 → lookup m.mem pt.rootPpn vpn = a vpn) :
    ∃ pt' m', (op.run pt).run m = .ok (pt', m') ∧ pt'.Valid m' ∧ pt'.rootPpn = pt.rootPpn ∧
      (∀ vpn, vpn.val < 2 ^ 27 → lookup m'.mem pt.rootPpn vpn = op.absStep a vpn) ∧
      m.frameAllocator.free ≤ m'.frameAllocator.free + 2 := by
  cases op with
  | map vpn ppn flags =>
    obtain ⟨hvpn, hppn, hun⟩ := hlegal
    obtain ⟨pt', m', hrun, hv', hr, hl, hf, -⟩ :=
      map_spec hv flags hvpn hppn ((hrel vpn hvpn).trans hun) hfree
    refine ⟨pt', m', hrun, hv', hr, fun vpn' hv'' => ?_, hf⟩
    rw [hl vpn' hv'', Op.absStep, Function.update_apply, Function.update_apply,
      hrel vpn' hv'']
  | unmap vpn =>
    obtain ⟨hvpn, hmapped⟩ := hlegal
    obtain ⟨m', hrun, hv', hl, hfa, -⟩ := unmap_spec hv hvpn (by rwa [hrel vpn hvpn])
    refine ⟨pt, m', ?_, hv', rfl, fun vpn' hv'' => ?_, by rw [hfa]; omega⟩
    · rw [Op.run, StateT.run_bind_of_ok hrun]
      rfl
    · rw [hl vpn' hv'', Op.absStep, Function.update_apply, Function.update_apply,
        hrel vpn' hv'']
  | isMapped vpn =>
    obtain ⟨pt', m', hrun, hv', hr, hl, hf, -⟩ := isMapped_spec hv vpn hfree
    refine ⟨pt', m', ?_, hv', hr, fun vpn' hv'' => ?_, hf⟩
    · rw [Op.run, StateT.run_bind_of_ok hrun]
      rfl
    · rw [hl vpn', Op.absStep, hrel vpn' hv'']

/-- A legal run with two free frames per call keeps the table valid and refines the same
run on the map. -/
theorem runOps_spec {pt : PageTable} {m : Machine} {a : AbsPageTable} {ops : List Op}
    (hv : pt.Valid m) (hlegal : LegalRun a ops) (hfree : 2 * ops.length ≤ m.frameAllocator.free)
    (hrel : ∀ vpn, vpn.val < 2 ^ 27 → lookup m.mem pt.rootPpn vpn = a vpn) :
    ∃ pt' m', (pt.runOps ops).run m = .ok (pt', m') ∧ pt'.Valid m' ∧ pt'.rootPpn = pt.rootPpn ∧
      ∀ vpn, vpn.val < 2 ^ 27 → lookup m'.mem pt.rootPpn vpn = absRun a ops vpn := by
  -- the loop invariant, indexed by the calls already made
  let I : List Op → PageTable → Machine → Prop := fun done pt' m' =>
    pt'.Valid m' ∧ pt'.rootPpn = pt.rootPpn ∧
    2 * (ops.length - done.length) ≤ m'.frameAllocator.free ∧
    ∀ vpn, vpn.val < 2 ^ 27 → lookup m'.mem pt.rootPpn vpn = absRun a done vpn
  have hloop := Triple.foldlM I ops [] pt fun done c rest acc hsplit => by
    rintro s ⟨hv, hr, hf, hl⟩
    simp only [List.nil_append] at hsplit
    have hlen : ops.length = done.length + 1 + rest.length := by simp [hsplit]; omega
    have hk : done.length < ops.length := by omega
    -- the call is the one the run makes after `done`
    have hc : ops[done.length] = c := by simp [hsplit]
    have htake : ops.take done.length = done := by simp [hsplit]
    have hlegal' : c.Legal (absRun a done) := by
      have h := hlegal done.length hk
      rwa [htake, hc] at h
    obtain ⟨pt', m', hrun, hv', hr', hl', hf'⟩ :=
      Op.run_spec hv hlegal' (by omega) (fun vpn hvpn => hr ▸ hl vpn hvpn)
    refine ⟨pt', m', hrun, hv', hr'.trans hr, ?_, fun vpn hvpn => ?_⟩
    · simp only [List.length_append, List.length_singleton]
      omega
    · rw [← hr, hl' vpn hvpn, absRun_concat]
  obtain ⟨pt', m', hrun, hv', hr', -, hl'⟩ :=
    hloop.run_eq ⟨hv, rfl, by simpa using hfree, by simpa [absRun] using hrel⟩
  exact ⟨pt', m', hrun, hv', hr', by simpa using hl'⟩

/-- **The page table refines a finite map.** From a new table, with an allocator holding a
frame for the root and two per call, every legal run of `map`, `unmap` and `is_mapped`
returns, and afterwards `translate` shows a valid entry with the ppn and flags of the finite
map updated by the same calls, and `None` or an invalid entry where that map has nothing. -/
theorem translate_refines_map {m : Machine} (hfa : m.frameAllocator.Inv) {ops : List Op}
    (hlegal : LegalRun (fun _ => none) ops)
    (hfree : 1 + 2 * ops.length ≤ m.frameAllocator.free) :
    ∃ pt m', (PageTable.new >>= fun pt => pt.runOps ops).run m = .ok (pt, m') ∧
      ∀ vpn : VirtPageNum, vpn.val < 2 ^ 27 →
        (pt.translate m'.mem vpn).bind PageTableEntry.mapping = absRun (fun _ => none) ops vpn := by
  obtain ⟨pt0, m0, hnew, hv0, hl0, hf0, -⟩ := new_spec hfa (by omega)
  obtain ⟨pt, m', hrun, -, hr, hl⟩ :=
    runOps_spec hv0 hlegal (by omega) fun vpn _ => hl0 vpn
  refine ⟨pt, m', by rw [StateT.run_bind_of_ok hnew]; exact hrun, fun vpn hvpn => ?_⟩
  rw [translate_mapping, hr]
  exact hl vpn hvpn

theorem translate_refines_map_four_calls :
    (StackFrameAllocator.new.init ⟨0x80000⟩ ⟨0x88000⟩).Inv ∧
    LegalRun (fun _ => none) [.map ⟨0x12345⟩ ⟨0x80100⟩ PTEFlags.R, .isMapped ⟨0x12345⟩,
      .unmap ⟨0x12345⟩, .map ⟨7⟩ ⟨0x80200⟩ PTEFlags.W] ∧
    1 + 2 * 4 ≤ (StackFrameAllocator.new.init ⟨0x80000⟩ ⟨0x88000⟩).free ∧
    ∃ pt m', (PageTable.new >>= fun pt => pt.runOps [.map ⟨0x12345⟩ ⟨0x80100⟩ PTEFlags.R,
        .isMapped ⟨0x12345⟩, .unmap ⟨0x12345⟩, .map ⟨7⟩ ⟨0x80200⟩ PTEFlags.W]).run
        ⟨fun _ => 0, StackFrameAllocator.new.init ⟨0x80000⟩ ⟨0x88000⟩⟩ = .ok (pt, m') ∧
      ∀ vpn : VirtPageNum, vpn.val < 2 ^ 27 →
        (pt.translate m'.mem vpn).bind PageTableEntry.mapping =
          absRun (fun _ => none) [.map ⟨0x12345⟩ ⟨0x80100⟩ PTEFlags.R, .isMapped ⟨0x12345⟩,
            .unmap ⟨0x12345⟩, .map ⟨7⟩ ⟨0x80200⟩ PTEFlags.W] vpn := by
  have hfa : (StackFrameAllocator.new.init ⟨0x80000⟩ ⟨0x88000⟩).Inv :=
    StackFrameAllocator.inv_init (by decide) (by decide)
  have hlegal : LegalRun (fun _ => none) [.map ⟨0x12345⟩ ⟨0x80100⟩ PTEFlags.R,
      .isMapped ⟨0x12345⟩, .unmap ⟨0x12345⟩, .map ⟨7⟩ ⟨0x80200⟩ PTEFlags.W] := by
    decide
  have hfree : 1 + 2 * 4 ≤ (StackFrameAllocator.new.init ⟨0x80000⟩ ⟨0x88000⟩).free := by
    decide
  exact ⟨hfa, hlegal, hfree, translate_refines_map hfa hlegal hfree⟩

/-- Linking tables is visible to `translate`: after `map` of page 0 on a new table, page 1,
which shares its leaf table, translates to an invalid entry where it translated to `None`. -/
theorem map_changes_translate_of_other_vpn :
    (do
      let pt ← PageTable.new
      let before := pt.translate (← get).mem ⟨1⟩
      let pt ← pt.map ⟨0⟩ ⟨0x80123⟩ PTEFlags.R
      pure (before, pt.translate (← get).mem ⟨1⟩) : KernelM Machine _).run'
        ⟨fun _ => 0, StackFrameAllocator.new.init ⟨0x80000⟩ ⟨0x88000⟩⟩ =
      .ok (none, some PageTableEntry.empty) := by
  decide

end PageTable

end NaiveOs
