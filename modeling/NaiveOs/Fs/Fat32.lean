import Mathlib
import NaiveOs.Basic
import NaiveOs.Lib.Triple

/-!
# Directory lookups of the `fat32` crate (`dir.rs`, `directory_item.rs`, `tool.rs`)

The kernel reads its FAT32 volume through the `fat32` crate. A directory is a sequence of 32-byte
items that `DirIter` yields one by one. An entry with a long name has one long-name item per
13-character piece of it, the last piece first, each with its position among the pieces
(`count_of_name`), the first one yielded flagged `0x40` as the end of the name; its short item
follows, with the 8.3 name and the cluster of the entry's contents. The model takes the volume as
a tree of entries (`FatEntry`) and yields the items as the crate reads them (`Dir.iter`); the `.`
and `..` items, which `DirIter` skips, have no entry.

`Dir::exist` looks a name up in one of two ways (`sfn_or_lfn`). A name that is ASCII, without an
upper-case letter or a space, with at most one dot and at most 8 characters before it and 3 after
it is compared with each short name (`sfn_equal`). Any other name is looked up as a long name
(`find_lfn`): the first item flagged as the end of a name of as many pieces as the name needs
that holds the name's last piece, then the items after it, one by one, against the pieces before;
the lookup returns the item after those. Both comparisons ignore ASCII case
(`eq_ignore_ascii_case`). `Dir::open_file` and `Dir::cd` refuse a name with one of the nine
characters `is_illegal` lists, and keep a regular file, or a directory, among what `exist` finds.

A lookup therefore does not, in general, find the entry whose long name is the name looked up:
a lower-case 8.3 name is compared with short names only, and letters match in either case. What
it finds is always an item of the directory (`exist_mem`), so `open_file` gives the contents of a
regular file of the directory and `cd` the entries of one of its subdirectories (`openFile_mem`,
`cd_mem`); a chain of lookups (`Resolves`) ends at a regular file of the tree (`Resolves.inTree`).
-/

namespace NaiveOs

/-- `ShortDirectoryItem`'s name: the 8 bytes of the name and the 3 of the extension, padded with
spaces. -/
structure ShortName where
  name : List UInt8
  extension : List UInt8
  name_length : name.length = 8
  extension_length : extension.length = 3
  deriving DecidableEq, Repr

namespace ShortName

/-- `get_full_name_bytes`: the name's bytes other than spaces, a dot unless the extension starts
with a space, and the extension's bytes other than spaces. -/
def fullNameBytes (s : ShortName) : List UInt8 :=
  s.name.filter (· != 0x20) ++
    (if s.extension.get ⟨0, by simp [s.extension_length]⟩ != 0x20 then [0x2E] else []) ++
    s.extension.filter (· != 0x20)

end ShortName

/-- An entry of a FAT32 directory: a regular file or a subdirectory, whose long name is the pieces
`lfn`, first to last (none for an entry with a short name only), and whose short name is `sfn`. -/
inductive FatEntry
  | file (lfn : List String) (sfn : ShortName) (bytes : List UInt8)
  | dir (lfn : List String) (sfn : ShortName) (entries : List FatEntry)
  deriving Repr

/-- A `DirectoryItem`: a long-name item with `count_of_name`, `is_name_end` and its characters
(`get_lfn`), or the short item of an entry, whose type (`Dir` or `File`), name and cluster the
entry gives. -/
inductive DirectoryItem
  | lfn (countOfName : Nat) (nameEnd : Bool) (name : String)
  | short (entry : FatEntry)
  deriving Repr

namespace FatEntry

/-- The pieces of the long name. -/
def lfn : FatEntry → List String
  | .file lfn _ _ | .dir lfn _ _ => lfn

/-- The short name. -/
def sfn : FatEntry → ShortName
  | .file _ sfn _ | .dir _ sfn _ => sfn

/-- The long name, for an entry that has one. -/
def longName (e : FatEntry) : Option String :=
  if e.lfn = [] then none else some (String.join e.lfn)

/-- The long-name items of the pieces `lfn`, the last piece first: the `i`-th piece, counted from
1, has position `i`, and the last is flagged as the end of the name. -/
def lfnItems (lfn : List String) : List DirectoryItem :=
  (lfn.zipIdx 1).reverse.map fun (piece, i) => .lfn i (i == lfn.length) piece

/-- The items of the entry, in the order `DirIter` yields them. -/
def items (e : FatEntry) : List DirectoryItem := lfnItems e.lfn ++ [.short e]

/-- The contents of a regular file. -/
def fileBytes? : FatEntry → Option (List UInt8)
  | .file _ _ bytes => some bytes
  | .dir .. => none

/-- The entries of a subdirectory. -/
def entries? : FatEntry → Option (List FatEntry)
  | .file .. => none
  | .dir _ _ entries => some entries

mutual

/-- The levels of subdirectories below an entry. -/
def height : FatEntry → Nat
  | .file .. => 0
  | .dir _ _ entries => heights entries + 1

/-- The levels of subdirectories below the entries of a directory. -/
def heights : List FatEntry → Nat
  | [] => 0
  | e :: es => max e.height (heights es)

end

mutual

/-- The regular files below an entry in the directory at `path`, under the absolute paths their
long names give. -/
def files (path : String) : FatEntry → List (String × List UInt8)
  | .file lfn sfn bytes =>
    match (FatEntry.file lfn sfn bytes).longName with
    | some name => [(path ++ name, bytes)]
    | none => []
  | .dir lfn sfn entries =>
    match (FatEntry.dir lfn sfn entries).longName with
    | some name => filesIn (path ++ name ++ "/") entries
    | none => []

/-- The regular files below the entries of the directory at `path`. -/
def filesIn (path : String) : List FatEntry → List (String × List UInt8)
  | [] => []
  | e :: es => files path e ++ filesIn path es

end

/-- `e` is an entry of the directory `dir` or of a directory below it. -/
inductive InTree (e : FatEntry) : List FatEntry → Prop
  | here {dir : List FatEntry} : e ∈ dir → InTree e dir
  | sub {dir : List FatEntry} {lfn : List String} {sfn : ShortName} {entries : List FatEntry} :
      FatEntry.dir lfn sfn entries ∈ dir → InTree e entries → InTree e dir

end FatEntry

/-! ## Names -/

/-- `NameType`: how `exist` looks a name up. -/
inductive NameType
  | sfn
  | lfn
  deriving DecidableEq, Repr

/-- `tool::sfn_or_lfn`. The name is split at its first dot (`value.find('.')`); the lengths are
counted in bytes by the source, which are the characters of an ASCII name. -/
def sfnOrLfn (value : String) : NameType :=
  let cs := value.toList
  let (name, extension) := match cs.span (· != '.') with
    | (name, []) => (name, [])
    | (name, _ :: extension) => (name, extension)
  if cs.all Char.isAscii && !cs.any Char.isUpper && !cs.contains ' ' && !name.contains '.' &&
      !extension.contains '.' && name.length ≤ 8 && extension.length ≤ 3 then .sfn
  else .lfn

/-- `tool::get_count_of_lfn`: the number of 13-character pieces of a name. -/
def getCountOfLfn (value : List Char) : Nat :=
  if value.length % 13 = 0 then value.length / 13 else value.length / 13 + 1

/-- `tool::get_lfn_index`: where the `count`-th piece of a name starts, after its first
`13 * (count - 1)` characters. The source counts the bytes of those characters and slices at that
byte offset; the model slices at the character, the same place. `count` is never 0 here: an
empty name is looked up as a short name, and the loop of `find_lfn` starts its counts at 1. -/
def getLfnIndex (value : List Char) (count : Nat) : Nat := min (13 * (count - 1)) value.length

/-- `str::eq_ignore_ascii_case`: equal once the ASCII upper-case letters are made lower case. The
source compares UTF-8 bytes, of which only those of ASCII letters change; comparing the
characters so mapped is the same. -/
def eqIgnoreAsciiCase (a b : List Char) : Bool := a.map Char.toLower == b.map Char.toLower

/-- The code points of the characters `tool::is_illegal` refuses: backslash, slash, colon, star,
question mark, double quote, less than, greater than and bar. -/
def illegalChar : List Char := [92, 47, 58, 42, 63, 34, 60, 62, 124].map Char.ofNat

/-- `tool::is_illegal`. -/
def isIllegal (chs : String) : Bool := illegalChar.any chs.toList.contains

namespace DirectoryItem

/-- `DirectoryItem::lfn_equal`: a short item has no long name. -/
def lfnEqual : DirectoryItem → List Char → Bool
  | .lfn _ _ name, value => eqIgnoreAsciiCase value name.toList
  | .short _, _ => false

/-- `DirectoryItem::sfn_equal`: the short name, read with `str::from_utf8`, against the name. A
long-name item has no short name. -/
def sfnEqual : DirectoryItem → List Char → Bool
  | .short e, value =>
    match String.fromUTF8? ⟨e.sfn.fullNameBytes.toArray⟩ with
    | some res => eqIgnoreAsciiCase value res.toList
    | none => false
  | .lfn .., _ => false

/-- The test of the `iter.find` in `find_lfn`: a long-name item of `count` pieces, flagged as the
end of a name, holding `piece`. -/
def isLfnEnd (count : Nat) (piece : List Char) : DirectoryItem → Bool
  | d@(.lfn n nameEnd _) => n == count && nameEnd && d.lfnEqual piece
  | .short _ => false

end DirectoryItem

/-! ## Lookups -/

/-- `DirError`. -/
inductive DirError
  | illegalChar
  | noMatchFile
  | noMatchDir
  deriving DecidableEq, Repr

namespace Dir

/-- `Dir::iter`: the items of every entry, in on-disk order. -/
def iter (dir : List FatEntry) : List DirectoryItem := dir.flatMap FatEntry.items

/-- `Iterator::find` on the items a `DirIter` has left: the first item that passes `p`, and the
items after it, which the iterator yields next. -/
def find (p : DirectoryItem → Bool) : List DirectoryItem → Option (DirectoryItem × List DirectoryItem)
  | [] => none
  | d :: rest => if p d then some (d, rest) else find p rest

/-- The loop `for c in (1..count).rev()` of `find_lfn`, from `c` down to 1: each round cuts the
name at `index`, takes the `c`-th piece of what is left and compares it with the next item
(`iter.next().unwrap()`, which panics past the last item). The result is `has_match` and the
items left. The round's `let value` shadows the name inside the round only, so each round cuts
the whole name `value`. -/
def matchPieces (value : List Char) : Nat → Nat → List DirectoryItem →
    Except Panic (Bool × List DirectoryItem)
  | _, 0, rest => pure (true, rest)
  | index, c + 1, rest =>
    let pre := value.take index
    let index := getLfnIndex pre (c + 1)
    match rest with
    | [] => throw .unwrapNone
    | next :: rest =>
      if next.lfnEqual (pre.drop index) then matchPieces value index c rest
      else pure (false, rest)

/-- `Dir::find_lfn`. When `iter.find` finds nothing it has used up the iterator, and the final
`iter.next()` is `None`. -/
def findLfn (items : List DirectoryItem) (value : List Char) :
    Except Panic (Option DirectoryItem) := do
  let count := getCountOfLfn value
  let index := getLfnIndex value count
  match find (DirectoryItem.isLfnEnd count (value.drop index)) items with
  | none => pure none
  | some (_, rest) =>
    let (hasMatch, rest) ← matchPieces value index (count - 1) rest
    pure (if hasMatch then rest.head? else none)

/-- `Dir::exist`. -/
def exist (dir : List FatEntry) (value : String) : Except Panic (Option DirectoryItem) :=
  match sfnOrLfn value with
  | .sfn => pure ((find (DirectoryItem.sfnEqual · value.toList) (iter dir)).map Prod.fst)
  | .lfn => findLfn (iter dir) value.toList

/-- `Dir::open_file`: the contents of the regular file `exist` finds. -/
def openFile (dir : List FatEntry) (file : String) :
    Except Panic (Except DirError (List UInt8)) := do
  if isIllegal file then return .error .illegalChar
  match ← exist dir file with
  | some (.short (.file _ _ bytes)) => pure (.ok bytes)
  | _ => pure (.error .noMatchFile)

/-- `Dir::cd`: the entries of the directory `exist` finds. -/
def cd (dir : List FatEntry) (name : String) : Except Panic (Except DirError (List FatEntry)) := do
  if isIllegal name then return .error .illegalChar
  match ← exist dir name with
  | some (.short (.dir _ _ entries)) => pure (.ok entries)
  | _ => pure (.error .noMatchDir)

/-! ## What a lookup finds -/

/-- Inverting `find`: the items split at the item found, which passes the test. -/
theorem find_eq_some {p : DirectoryItem → Bool} :
    ∀ {l rest : List DirectoryItem} {d : DirectoryItem}, find p l = some (d, rest) →
      ∃ pre, l = pre ++ d :: rest ∧ p d = true
  | [], _, _, h => by cases h
  | e :: l, rest, d, h => by
    rw [find] at h
    by_cases he : p e = true
    · rw [if_pos he, Option.some.injEq, Prod.mk.injEq] at h
      obtain ⟨rfl, rfl⟩ := h
      exact ⟨[], rfl, he⟩
    · rw [if_neg he] at h
      obtain ⟨pre, rfl, hd⟩ := find_eq_some h
      exact ⟨e :: pre, rfl, hd⟩

/-- The items `matchPieces` leaves are a suffix of those it was given. -/
theorem matchPieces_suffix {value : List Char} :
    ∀ {index c : Nat} {l rest : List DirectoryItem} {b : Bool},
      matchPieces value index c l = .ok (b, rest) → rest <:+ l
  | _, 0, l, _, _, h => by
    cases h
    exact List.suffix_refl l
  | _, _ + 1, [], _, _, h => by cases h
  | index, c + 1, d :: l, rest, b, h => by
    simp only [matchPieces] at h
    split at h
    · exact (matchPieces_suffix h).trans (List.suffix_cons d l)
    · cases h
      exact List.suffix_cons d l

/-- The item `find_lfn` returns is one of the items. -/
theorem findLfn_mem {items : List DirectoryItem} {value : List Char} {d : DirectoryItem}
    (h : findLfn items value = .ok (some d)) : d ∈ items := by
  dsimp only [findLfn] at h
  split at h
  · cases h
  · rename_i d₀ rest hfind
    obtain ⟨pre, rfl, -⟩ := find_eq_some hfind
    obtain ⟨⟨hasMatch, rest'⟩, hm, h⟩ := Except.bind_eq_ok h
    have hsuf := matchPieces_suffix hm
    -- the item returned is the head of what the loop leaves
    cases hasMatch
    · cases h
    · have hhead : rest'.head? = some d := Except.ok.inj h
      have hd : d ∈ rest' := List.mem_of_mem_head? hhead
      exact List.mem_append_right _ (List.mem_cons_of_mem _ (hsuf.subset hd))

/-- What `exist` finds is an item of the directory. -/
theorem exist_mem {dir : List FatEntry} {value : String} {d : DirectoryItem}
    (h : exist dir value = .ok (some d)) : d ∈ iter dir := by
  unfold exist at h
  split at h
  · obtain ⟨⟨d', rest⟩, hfind, hd⟩ := Option.map_eq_some_iff.mp (Except.ok.inj h)
    obtain ⟨pre, heq, -⟩ := find_eq_some hfind
    cases hd
    rw [heq]
    simp
  · exact findLfn_mem h

/-- The short items of a directory are those of its entries. -/
theorem mem_iter_short {dir : List FatEntry} {e : FatEntry} (h : .short e ∈ iter dir) : e ∈ dir := by
  obtain ⟨e', he', hmem⟩ := List.mem_flatMap.mp h
  simp only [FatEntry.items, FatEntry.lfnItems, List.mem_append, List.mem_map, List.mem_reverse,
    List.mem_singleton, DirectoryItem.short.injEq] at hmem
  rcases hmem with ⟨_, -, hlfn⟩ | rfl
  · cases hlfn
  · exact he'

/-- What `open_file` returns is the contents of a regular file of the directory. -/
theorem openFile_mem {dir : List FatEntry} {file : String} {bytes : List UInt8}
    (h : openFile dir file = .ok (.ok bytes)) : ∃ lfn sfn, FatEntry.file lfn sfn bytes ∈ dir := by
  unfold openFile at h
  split at h
  · cases h
  · obtain ⟨o, hex, h⟩ := Except.bind_eq_ok h
    split at h
    · rename_i lfn sfn b
      cases h
      exact ⟨lfn, sfn, mem_iter_short (exist_mem hex)⟩
    · cases h

/-- What `cd` returns is the entries of a subdirectory of the directory. -/
theorem cd_mem {dir : List FatEntry} {name : String} {entries : List FatEntry}
    (h : cd dir name = .ok (.ok entries)) : ∃ lfn sfn, FatEntry.dir lfn sfn entries ∈ dir := by
  unfold cd at h
  split at h
  · cases h
  · obtain ⟨o, hex, h⟩ := Except.bind_eq_ok h
    split at h
    · rename_i lfn sfn es
      cases h
      exact ⟨lfn, sfn, mem_iter_short (exist_mem hex)⟩
    · cases h

/-- The crate's lookups lead from the directory `dir` at `path` to the regular file with contents
`x.2` under the path `x.1`: `cd` into a subdirectory by each name but the last, which `open_file`
opens. -/
inductive Resolves : List FatEntry → String → String × List UInt8 → Prop
  | file {dir : List FatEntry} {path name : String} {bytes : List UInt8} :
      openFile dir name = .ok (.ok bytes) → Resolves dir path (path ++ name, bytes)
  | sub {dir entries : List FatEntry} {path name : String} {x : String × List UInt8} :
      cd dir name = .ok (.ok entries) → Resolves entries (path ++ name ++ "/") x → Resolves dir path x

/-- What the lookups lead to is a regular file of the tree. The induction is on the lookups. -/
theorem Resolves.inTree {dir : List FatEntry} {path : String} {x : String × List UInt8}
    (h : Resolves dir path x) : ∃ lfn sfn, FatEntry.InTree (.file lfn sfn x.2) dir := by
  induction h with
  | file hopen =>
    obtain ⟨lfn, sfn, hmem⟩ := openFile_mem hopen
    exact ⟨lfn, sfn, .here hmem⟩
  | sub hcd _ ih =>
    obtain ⟨lfn, sfn, hmem⟩ := cd_mem hcd
    obtain ⟨lfn', sfn', hin⟩ := ih
    exact ⟨lfn', sfn', .sub hmem hin⟩

end Dir

end NaiveOs
