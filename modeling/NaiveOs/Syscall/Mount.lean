import Mathlib
import NaiveOs.Syscall.Fs
import NaiveOs.Fs.Fat32

/-!
# Mounting the FAT32 volume: `Thread::sys_mount` (`syscall/fs.rs`)

`sys_mount` walks the directory tree of the volume with `full_search_mount` and registers regular
files in `GLOBAL_DENTRY_CACHE`, each under the path it looked the file up by, with a new inode
holding the file's bytes. It reads a directory through the `fat32` crate (`Fs.Fat32`): `Dir::iter`
for its items, and `Dir::open_file` and `Dir::cd` to look up the names it builds.

`full_search_mount` prepends each long-name piece to the name gathered so far and looks the result
up after every piece. A miss on the item flagged as the end of a name keeps the gathered text, a
miss on any other item throws it away. A name of one or two pieces is therefore looked up whole,
but a name of three or more never is: after its second item, which is not flagged, the gathered
text is dropped. Such a file never reaches the cache (`mount_misses_three_piece_name`), and
neither does a file with no long name, whose short item the loop skips.

The walk into a subdirectory is a recursive call; `fullSearchMount` takes as fuel the height of
the tree, which `sysMount` supplies.

What the mount registers is what the crate's lookups give (`sysMount_registers_files`): every path
it binds leads, through `cd` and `open_file`, to a regular file of the volume (`Dir.Resolves`),
bound to a new inode holding that file's bytes. This is not the file whose long name the path
spells: the lookups ignore case and compare short names, so a piece `readme.md` of a longer name
binds `/readme.md` to the file `Readme.md` (`sysMount_registers_files_readme`). The relation
`Registers` between the kernel before and after a part of the walk carries this; each loop
iteration keeps it, and a subdirectory's lookups extend its parent's.
-/

namespace NaiveOs

namespace Thread

/-- One iteration of the loop of `full_search_mount` over the directory `dir` at `path`, with the
long name `lfnName` gathered so far and the call `recurse` on a subdirectory; the result is the
gathered name after the item. -/
def mountItem (recurse : List FatEntry → String → KernelM Kernel Unit) (dir : List FatEntry)
    (path lfnName : String) : DirectoryItem → KernelM Kernel String
  | .lfn _ nameEnd name => do
    let lfnName := name ++ lfnName
    let filePath := path ++ lfnName
    match ← Dir.openFile dir lfnName with
    | .ok bytes =>
      Kernel.print (TerminalINode.putChars s!"[mount] find file {filePath}\n")
      -- `resize(file.length(), 0)` and `file.read` fill the new inode with the file
      let inode ← Kernel.newInode (.regFile ⟨true, true, bytes⟩)
      if bytes.length = 0 then Kernel.print (TerminalINode.putChars "empty file.\n")
      Kernel.dentryInsert filePath inode
      pure ""
    | .error _ =>
      match ← Dir.cd dir lfnName with
      | .ok newDir =>
        recurse newDir (path ++ lfnName ++ "/")
        pure ""
      | .error _ =>
        if !nameEnd then pure ""
        else
          Kernel.print (TerminalINode.putChars s!"failed on {lfnName}\n")
          pure lfnName
  | .short (.file _ sfn _) =>
    -- `core::str::from_utf8(&item.sfn.unwrap().name).unwrap()` on the eight bytes of the name
    match String.fromUTF8? ⟨sfn.name.toArray⟩ with
    | some _ => pure lfnName
    | none => throw .unwrapErr
  | .short (.dir ..) => pure lfnName

/-- `Thread::full_search_mount` on a tree of at most `fuel` levels. -/
def fullSearchMount : Nat → List FatEntry → String → KernelM Kernel Unit
  | 0, _, _ => pure ()
  | fuel + 1, dir, path =>
    discard ((Dir.iter dir).foldlM (mountItem (fullSearchMount fuel) dir path) "")

/-- `Thread::sys_mount` on the volume whose root directory holds `root`. -/
def sysMount (root : List FatEntry) : KernelM Kernel Int := do
  fullSearchMount (FatEntry.heights root + 1) root "/"
  pure 0

end Thread

/-! ## A name of three pieces -/

/-- The short name `A`. -/
def shortA : ShortName :=
  ⟨[0x41, 0x20, 0x20, 0x20, 0x20, 0x20, 0x20, 0x20], [0x20, 0x20, 0x20], rfl, rfl⟩

/-- A root directory holding one file, whose 27-character long name takes three long-name items. -/
def threePieceRoot : List FatEntry :=
  [.file ["abcdefghijklm", "nopqrstuvwxyz", "0"] shortA [1, 2, 3]]

/-- The root holds the regular file `/abcdefghijklmnopqrstuvwxyz0`, and after the mount the cache
is still empty. -/
theorem mount_misses_three_piece_name :
    FatEntry.filesIn "/" threePieceRoot = [("/abcdefghijklmnopqrstuvwxyz0", [1, 2, 3])] ∧
    ((Thread.sysMount threePieceRoot).run
      (Thread.twoPageKernel Thread.twoPageMem [] [] [] "/" [])).map (·.2.dentryCache) = .ok [] := by
  constructor
  · decide
  · decide

/-- A name of two pieces is looked up whole on its second item, and found. -/
example :
    ((Thread.sysMount [.file ["abcdefghijklm", "n"] shortA [1, 2, 3]]).run
      (Thread.twoPageKernel Thread.twoPageMem [] [] [] "/" [])).map (·.2.dentryCache) =
      .ok [("/abcdefghijklmn", 0)] := by
  decide

/-! ## What a mount registers -/

/-- Binding `p'` leaves the other paths' bindings as they were. -/
theorem lookup_filter_ne {β : Type} {p p' : String} (h : p ≠ p') :
    ∀ l : List (String × β), (l.filter (·.1 ≠ p')).lookup p = l.lookup p
  | [] => rfl
  | (q, b) :: l => by
    by_cases hq : q = p'
    · subst hq
      rw [List.filter_cons_of_neg (by simp), lookup_filter_ne h l]
      simp [List.lookup, beq_eq_false_iff_ne.mpr h]
    · rw [List.filter_cons_of_pos (by simpa using hq)]
      simp only [List.lookup, lookup_filter_ne h l]

namespace Thread

/-- What a mount may do between two kernels: the inodes are only appended to, and every path the
cache binds it bound before, or is bound to an inode holding bytes `bytes`, readable and
writable, with `S (path, bytes)`. -/
structure Registers (S : String × List UInt8 → Prop) (k k' : Kernel) : Prop where
  inodes_prefix : k.inodes <+: k'.inodes
  sound : ∀ p ino, k'.dentryCache.lookup p = some ino →
    k.dentryCache.lookup p = some ino ∨
      ∃ bytes, S (p, bytes) ∧ k'.inodes[ino]? = some (.regFile ⟨true, true, bytes⟩)

namespace Registers

variable {S : String × List UInt8 → Prop} {k k₁ k₂ k₃ : Kernel}

/-- A step that keeps the inodes and the cache registers nothing. -/
theorem of_eq {k' : Kernel} (hi : k'.inodes = k.inodes) (hd : k'.dentryCache = k.dentryCache) :
    Registers S k k' :=
  ⟨hi ▸ List.prefix_refl _, fun _ _ h => Or.inl (hd ▸ h)⟩

theorem trans (h₁ : Registers S k₁ k₂) (h₂ : Registers S k₂ k₃) : Registers S k₁ k₃ := by
  refine ⟨h₁.inodes_prefix.trans h₂.inodes_prefix, fun p ino h => ?_⟩
  rcases h₂.sound p ino h with h | h
  · rcases h₁.sound p ino h with h | ⟨bytes, hS, hino⟩
    · exact Or.inl h
    · -- the inode was there in `k₂`, and inodes are only appended
      obtain ⟨t, ht⟩ := h₂.inodes_prefix
      have hlt := (List.getElem?_eq_some_iff.mp hino).1
      exact Or.inr ⟨bytes, hS, by rw [← ht, List.getElem?_append_left hlt, hino]⟩
  · exact Or.inr h

theorem mono {S' : String × List UInt8 → Prop} (hS : ∀ x, S x → S' x) (h : Registers S k k₁) :
    Registers S' k k₁ :=
  ⟨h.inodes_prefix, fun p ino hp => (h.sound p ino hp).imp_right
    fun ⟨bytes, hb, hino⟩ => ⟨bytes, hS _ hb, hino⟩⟩

/-- A new inode holding the file's bytes, and the file's path bound to it. -/
theorem insert {fp : String} {bytes : List UInt8} (hS : S (fp, bytes)) (out : List UInt8) :
    Registers S k { k with
      stdout := out,
      inodes := k.inodes ++ [.regFile ⟨true, true, bytes⟩],
      dentryCache := (fp, k.inodes.length) :: k.dentryCache.filter (·.1 ≠ fp) } := by
  refine ⟨List.prefix_append _ _, fun p ino h => ?_⟩
  by_cases hp : p = fp
  · subst hp
    simp only [List.lookup, beq_self_eq_true, Option.some.injEq] at h
    subst h
    exact Or.inr ⟨bytes, hS, by simp⟩
  · have hne : (p == fp) = false := by simpa using hp
    simp only [List.lookup, hne, lookup_filter_ne hp] at h
    exact Or.inl h

/-- A computation each of whose runs registers nothing beyond `S` keeps `Registers S k₀` for
every starting point `k₀`. -/
theorem returns {α : Type} {x : KernelM Kernel α}
    (h : ∀ k a k', x.run k = .ok (a, k') → Registers S k k') (k₀ : Kernel) :
    Returns (Registers S k₀) x fun _ => Registers S k₀ :=
  fun k a k' hk hx => hk.trans (h k a k' hx)

end Registers

variable {recurse : List FatEntry → String → KernelM Kernel Unit} {dir : List FatEntry}
  {path : String}

/-- The item that completes a name `open_file` opens: a new inode with the file's bytes, and the
path bound to it. -/
theorem mountItem_found {lfnName name : String} {c : Nat} {nameEnd : Bool} {bytes : List UInt8}
    (h : Dir.openFile dir (name ++ lfnName) = .ok (.ok bytes)) (k : Kernel) :
    ∃ out, (mountItem recurse dir path lfnName (.lfn c nameEnd name)).run k = .ok ("", { k with
      stdout := out,
      inodes := k.inodes ++ [.regFile ⟨true, true, bytes⟩],
      dentryCache := (path ++ (name ++ lfnName), k.inodes.length) ::
        k.dentryCache.filter (·.1 ≠ path ++ (name ++ lfnName)) }) := by
  simp [mountItem, h, Kernel.print, Kernel.newInode, Kernel.dentryInsert]
  split <;> exact ⟨_, rfl⟩

theorem mountItem_registers {S : String × List UInt8 → Prop}
    (hfile : ∀ name bytes, Dir.openFile dir name = .ok (.ok bytes) → S (path ++ name, bytes))
    (hrec : ∀ name newDir, Dir.cd dir name = .ok (.ok newDir) → ∀ k₀,
      Returns (Registers S k₀) (recurse newDir (path ++ name ++ "/")) fun _ => Registers S k₀)
    (lfnName : String) (item : DirectoryItem) (k₀ : Kernel) :
    Returns (Registers S k₀) (mountItem recurse dir path lfnName item) fun _ => Registers S k₀ := by
  cases item with
  | lfn c nameEnd name =>
    -- the two lookups either panic, or find, or miss
    rcases hf : Dir.openFile dir (name ++ lfnName) with e | ⟨e | bytes⟩
    · refine Registers.returns (fun k a k' hrun => ?_) k₀
      simp [mountItem, hf] at hrun
    · rcases hc : Dir.cd dir (name ++ lfnName) with e' | ⟨e' | newDir⟩
      · refine Registers.returns (fun k a k' hrun => ?_) k₀
        simp [mountItem, hf, hc] at hrun
      · -- a miss: at most a message is printed
        refine Registers.returns (fun k a k' hrun => ?_) k₀
        cases nameEnd <;> simp [mountItem, hf, hc, Kernel.print] at hrun <;> cases hrun <;>
          exact Registers.of_eq rfl rfl
      · -- the walk goes into the subdirectory
        have hrun : mountItem recurse dir path lfnName (.lfn c nameEnd name) =
            recurse newDir (path ++ (name ++ lfnName) ++ "/") >>= fun _ => pure "" := by
          simp only [mountItem, hf, hc]
          rfl
        rw [hrun]
        exact Returns.bind (hrec _ _ hc k₀) fun _ => Returns.pure' fun _ h => h
    · refine Registers.returns (fun k a k' hrun => ?_) k₀
      obtain ⟨out, hrun'⟩ := @mountItem_found recurse dir path lfnName name c nameEnd bytes hf k
      rw [hrun'] at hrun
      cases hrun
      exact Registers.insert (hfile _ _ hf) out
  | short e =>
    refine Registers.returns (fun k a k' hrun => ?_) k₀
    -- a short item changes nothing, or panics on a name that is not UTF-8
    cases e with
    | file lfn sfn bytes =>
      simp only [mountItem] at hrun
      split at hrun
      · cases hrun
        exact Registers.of_eq rfl rfl
      · cases hrun
    | dir lfn sfn entries =>
      cases hrun
      exact Registers.of_eq rfl rfl

/-- A walk of the directory at `path` registers only what the lookups from it lead to. The
induction is on the fuel; a subdirectory's lookups extend its parent's (`Dir.Resolves.sub`). -/
theorem fullSearchMount_registers : ∀ (fuel : Nat) (dir : List FatEntry) (path : String)
    (k : Kernel) (a : Unit) (k' : Kernel), (fullSearchMount fuel dir path).run k = .ok (a, k') →
    Registers (Dir.Resolves dir path) k k'
  | 0, _, _, k, _, k', h => by
    cases h
    exact Registers.of_eq rfl rfl
  | fuel + 1, dir, path, k, a, k', h => by
    have hrec : ∀ name newDir, Dir.cd dir name = .ok (.ok newDir) → ∀ k₀,
        Returns (Registers (Dir.Resolves dir path) k₀)
          (fullSearchMount fuel newDir (path ++ name ++ "/"))
          fun _ => Registers (Dir.Resolves dir path) k₀ := fun name newDir hc =>
      Registers.returns fun k a k' h =>
        (fullSearchMount_registers fuel newDir _ k a k' h).mono fun _ => Dir.Resolves.sub hc
    have hwalk := Returns.foldlM (fun _ _ => Registers (Dir.Resolves dir path) k) (Dir.iter dir)
      [] "" fun _ c _ lfnName _ => mountItem_registers (fun _ _ h => Dir.Resolves.file h) hrec
        lfnName c k
    -- `discard` runs the loop and drops the name it ends with
    have hd : fullSearchMount (fuel + 1) dir path =
        (Dir.iter dir).foldlM (mountItem (fullSearchMount fuel) dir path) "" >>= fun _ => pure () := by
      simp only [fullSearchMount, discard, Functor.mapConst]
      rfl
    rw [hd] at h
    obtain ⟨_, k₁, h₁, h₂⟩ := StateT.run_bind_eq_ok h
    rw [pure_run_state h₂]
    exact hwalk k _ k₁ (Registers.of_eq rfl rfl) h₁

/-- **What `sys_mount` registers.** A run of `sys_mount` that returns gives 0, only appends
inodes, and every path the dentry cache then binds it bound before, or leads through the `fat32`
crate's `cd` and `open_file` from the root to a regular file of the volume, and is bound to an
inode that holds that file's bytes, readable and writable. -/
theorem sysMount_registers_files {root : List FatEntry} {k k' : Kernel} {r : Int}
    (h : (sysMount root).run k = .ok (r, k')) :
    r = 0 ∧ Registers (Dir.Resolves root "/") k k' := by
  obtain ⟨_, k₁, h₁, h₂⟩ := StateT.run_bind_eq_ok h
  cases h₂
  exact ⟨rfl, fullSearchMount_registers _ root "/" k _ k' h₁⟩

/-- A root directory holding `abcdefghijklmreadme.md`, whose long name takes two items, with the
contents `[1]`, and `Readme.md`, with the contents `[2]`. -/
def readmeRoot : List FatEntry :=
  [.file ["abcdefghijklm", "readme.md"]
      ⟨[0x41, 0x42, 0x43, 0x44, 0x45, 0x46, 0x7E, 0x31], [0x4D, 0x44, 0x20], rfl, rfl⟩ [1],
    .file ["Readme.md"]
      ⟨[0x52, 0x45, 0x41, 0x44, 0x4D, 0x45, 0x20, 0x20], [0x4D, 0x44, 0x20], rfl, rfl⟩ [2]]

/-- The mount of `readmeRoot`: the piece `readme.md` is an 8.3 name and matches the short name
`README.MD`, so `/readme.md` is bound to the contents of `Readme.md`, as `/Readme.md` is; the
file `abcdefghijklmreadme.md` is not registered. -/
theorem readmeRoot_mount :
    ((sysMount readmeRoot).run (twoPageKernel twoPageMem [] [] [] "/" [])).map
      (fun x => (x.2.dentryCache, x.2.inodes)) =
      .ok ([("/Readme.md", 1), ("/readme.md", 0)],
        [.regFile ⟨true, true, [2]⟩, .regFile ⟨true, true, [2]⟩]) := by
  decide

/-- `sysMount_registers_files` on the mount of `readmeRoot`. -/
theorem sysMount_registers_files_readme :
    ∃ r k', (sysMount readmeRoot).run (twoPageKernel twoPageMem [] [] [] "/" []) = .ok (r, k') ∧
      k'.dentryCache = [("/Readme.md", 1), ("/readme.md", 0)] ∧
      k'.inodes = [.regFile ⟨true, true, [2]⟩, .regFile ⟨true, true, [2]⟩] ∧
      r = 0 ∧ Registers (Dir.Resolves readmeRoot "/") (twoPageKernel twoPageMem [] [] [] "/" []) k' := by
  have hmount := readmeRoot_mount
  cases h : (sysMount readmeRoot).run (twoPageKernel twoPageMem [] [] [] "/" []) with
  | error e =>
    rw [h] at hmount
    cases hmount
  | ok x =>
    rw [h] at hmount
    obtain ⟨hd, hi⟩ := Prod.mk.inj (Except.ok.inj hmount)
    exact ⟨x.1, x.2, rfl, hd, hi, sysMount_registers_files h⟩

end Thread

end NaiveOs
