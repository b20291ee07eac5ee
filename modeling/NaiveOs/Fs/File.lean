import Mathlib
import NaiveOs.Basic

/-!
# Inodes (`fs/file.rs`, `fs/vfs.rs`)

The kernel's files live in memory: a regular file is a byte vector, a pipe a byte vector that
writes append to, a terminal the SBI console. `INode` is the sum of the three
implementations of the `INode` trait the kernel creates, with the trait methods the system
calls use: `read_at`, `write_at`, `file_size` and `file_data`.

`read_at` returns the bytes it copies to the front of the caller's buffer (their number is the
`Ok` value of the source); `write_at` returns the count, the new inode and the bytes that
reach the console. The console is explicit: reads take the next input byte, and a terminal
write prints one byte per character of the decoded text.
-/

namespace NaiveOs

/-- `FsError`: the one error the modelled inodes return. -/
inductive FsError
  | invalidParam
  deriving DecidableEq, Repr

/-- `RegFileINode`: access rights and contents. -/
structure RegFileINode where
  readable : Bool
  writable : Bool
  file : List UInt8
  deriving DecidableEq, Repr

/-- `TerminalINode`. -/
structure TerminalINode where
  readable : Bool
  writable : Bool
  file : List UInt8
  deriving DecidableEq, Repr

/-- `PipeINode`: the bytes written so far. -/
structure PipeINode where
  buf : List UInt8
  deriving DecidableEq, Repr

/-- The inodes behind `Arc<Mutex<dyn INode>>`. -/
inductive INode
  | regFile (r : RegFileINode)
  | terminal (t : TerminalINode)
  | pipe (p : PipeINode)
  deriving DecidableEq, Repr

namespace RegFileINode

/-- `RegFileINode::new`: an empty file. -/
def new (readable writable : Bool) : RegFileINode := ⟨readable, writable, []⟩

/-- `RegFileINode::read_at`: `&self.file[offset..]` panics past the end. -/
def readAt (r : RegFileINode) (offset bufLen : Nat) : Except Panic (Except FsError (List UInt8)) :=
  if !r.readable then .ok (.error .invalidParam)
  else if offset > r.file.length then .error (.sliceOutOfRange offset r.file.length r.file.length)
  else
    let file := r.file.drop offset
    let len := min bufLen file.length
    .ok (.ok (file.take len))

/-- The `while pos < len` loop of `RegFileINode::write_at`: byte `pos` of the buffer goes to
`pos + offset`, pushed when that is at or past the end of the file. -/
def writeLoop (offset : Nat) : Nat → List UInt8 → List UInt8 → List UInt8
  | _, [], file => file
  | pos, b :: rest, file =>
    let file := if wrap (pos + offset) ≥ file.length then file ++ [b]
      else file.set (wrap (pos + offset)) b
    writeLoop offset (pos + 1) rest file

/-- `RegFileINode::write_at`. -/
def writeAt (r : RegFileINode) (offset : Nat) (buf : List UInt8) :
    Except FsError (Nat × RegFileINode) :=
  if !r.writable then .error .invalidParam
  else .ok (buf.length, { r with file := writeLoop offset 0 buf r.file })

/-- The write loop from byte `pos` on, while the indices do not wrap: the bytes replace those
from `offset + pos` on, and a file shorter than that keeps all of its bytes. The induction is on
the bytes left, for every `pos` and file. -/
theorem writeLoop_eq (offset : Nat) : ∀ (buf : List UInt8) (pos : Nat) (file : List UInt8),
    offset + pos + buf.length < 2 ^ 64 →
    writeLoop offset pos buf file =
      file.take (offset + pos) ++ buf ++ file.drop (offset + pos + buf.length) := by
  intro buf
  induction buf with
  | nil =>
    intro pos file _
    simp [writeLoop]
  | cons b rest ih =>
    intro pos file hw
    simp only [List.length_cons] at hw
    have hidx : wrap (pos + offset) = offset + pos := by rw [wrap_of_lt (by omega)]; omega
    rw [writeLoop, hidx, ih (pos + 1) _ (by omega)]
    by_cases hend : offset + pos ≥ file.length
    · -- at or past the end the byte is pushed, at index `len(f)`, not at `offset + pos`
      simp only [hend, if_true, List.length_cons]
      rw [List.take_of_length_le (by simp; omega), List.drop_of_length_le (by simp; omega),
        List.take_of_length_le hend, List.drop_of_length_le (by omega)]
      simp
    · simp only [hend, if_false, List.length_cons]
      have hlt : offset + pos < file.length := by omega
      -- an overwrite inside the file: the prefix up to `offset + pos` now ends with `b`
      have htake : (file.set (offset + pos) b).take (offset + pos + 1) =
          file.take (offset + pos) ++ [b] := by
        rw [List.take_succ_eq_append_getElem (by simpa using hlt), List.take_set_of_le le_rfl,
          List.getElem_set_self]
      rw [show offset + (pos + 1) = offset + pos + 1 by omega, htake,
        List.drop_set_of_lt (by omega)]
      simp [Nat.add_assoc, Nat.add_comm 1]

/-- What `write_at` leaves in a writable file: the bytes of `buf` from index `offset`, or from the
end of a file shorter than `offset`, since nothing fills the gap. -/
theorem writeAt_of_writable {r : RegFileINode} (h : r.writable = true) (offset : Nat)
    (buf : List UInt8) (hw : offset + buf.length < 2 ^ 64) :
    r.writeAt offset buf = .ok (buf.length,
      { r with file := r.file.take offset ++ buf ++ r.file.drop (offset + buf.length) }) := by
  simp [writeAt, h, writeLoop_eq offset buf 0 r.file (by omega)]

/-- Splicing `b₁` in at `o`, then `b₂` right after it, splices in `b₁ ++ b₂` at `o`: the shape
of two writes that follow each other in one file. -/
theorem splice_append {α : Type} (F b₁ b₂ : List α) (o : Nat) {n₁ n₂ : Nat}
    (h₁ : b₁.length = n₁) (h₂ : b₂.length = n₂) :
    (F.take o ++ b₁ ++ F.drop (o + n₁)).take (o + n₁) ++ b₂ ++
        (F.take o ++ b₁ ++ F.drop (o + n₁)).drop (o + n₁ + n₂) =
      F.take o ++ (b₁ ++ b₂) ++ F.drop (o + (n₁ + n₂)) := by
  subst h₁ h₂
  by_cases ho : o ≤ F.length
  · have hl : (F.take o ++ b₁).length = o + b₁.length := by simp [ho]
    have hd : (F.take o ++ b₁ ++ F.drop (o + b₁.length)).drop (o + b₁.length + b₂.length) =
        F.drop (o + (b₁.length + b₂.length)) := by
      rw [List.drop_append, List.drop_eq_nil_of_le (by rw [hl]; omega), List.nil_append, hl,
        List.drop_drop]
      congr 1
      omega
    rw [List.take_left' hl, hd, List.append_assoc _ b₁ b₂]
  · have h1 : F.take o = F := List.take_of_length_le (by omega)
    have h2 : ∀ k, F.drop (o + k) = [] := fun k => List.drop_of_length_le (by omega)
    simp only [h1, h2, List.append_nil]
    rw [List.take_of_length_le (by simp; omega), List.drop_of_length_le (by simp; omega)]
    simp

/-- **`write_at` then `read_at` on a regular file.** On a readable and writable file, writing
`buf` at an offset inside the file or at its end, then reading `buf.len()` bytes at that offset,
returns `buf`; the write reports all of `buf`, keeps the bytes before the offset and lengthens
the file only as far as it reaches. -/
theorem writeAt_readAt {r : RegFileINode} (hr : r.readable = true) (hw : r.writable = true)
    {offset : Nat} (hoff : offset ≤ r.file.length) (buf : List UInt8)
    (hlen : offset + buf.length < 2 ^ 64) :
    ∃ r', r.writeAt offset buf = .ok (buf.length, r') ∧
      r'.readAt offset buf.length = .ok (.ok buf) ∧ r'.file.take offset = r.file.take offset ∧
      r'.file.length = max r.file.length (offset + buf.length) := by
  refine ⟨_, writeAt_of_writable hw offset buf hlen, ?_, ?_, ?_⟩
  · -- the bytes from `offset` on are `buf`, then what the file had past it
    have hdrop : (r.file.take offset ++ buf ++ r.file.drop (offset + buf.length)).drop offset =
        buf ++ r.file.drop (offset + buf.length) := by
      rw [List.append_assoc, List.drop_append_of_le_length (by simp [hoff]),
        List.drop_of_length_le (by simp), List.nil_append]
    have hin : ¬ offset > (r.file.take offset ++ buf ++ r.file.drop (offset + buf.length)).length := by
      simp only [List.length_append, List.length_take, List.length_drop]
      omega
    simp only [readAt, hr, Bool.not_true, Bool.false_eq_true, if_false, if_neg hin, hdrop]
    rw [Nat.min_eq_left (by simp), List.take_left]
  · simp [Nat.min_eq_left hoff]
  · simp only [List.length_append, List.length_take, List.length_drop]
    omega

/-- Overwriting the last two bytes of a three-byte file and running past its end. -/
theorem writeAt_readAt_overlap :
    ∃ r', (⟨true, true, [1, 2, 3]⟩ : RegFileINode).writeAt 1 [7, 8, 9] = .ok (3, r') ∧
      r'.readAt 1 3 = .ok (.ok [7, 8, 9]) ∧ r'.file.take 1 = [1] ∧ r'.file.length = 4 :=
  writeAt_readAt rfl rfl (by decide) [7, 8, 9] (by decide)

end RegFileINode

namespace TerminalINode

def newStdin : TerminalINode := ⟨true, false, []⟩
def newStdout : TerminalINode := ⟨false, true, []⟩
def newStderr : TerminalINode := ⟨false, true, []⟩

/-- `TerminalINode::read_at` through `terminal_read`: `buf[0] = console_getchar() as u8`. -/
def readAt (t : TerminalINode) (bufLen : Nat) (input : UInt8) :
    Except Panic (Except FsError (List UInt8)) :=
  if !t.readable then .ok (.error .invalidParam)
  else if bufLen = 0 then .error (.indexOutOfBounds 0 0)
  else .ok (.ok [input])

/-- `Stdout::write_str`: one `console_putchar(c as usize)` per character, and the legacy SBI
console prints the low byte of its argument. -/
def putChars (s : String) : List UInt8 := s.toList.map fun c => UInt8.ofNat c.toNat

/-- `TerminalINode::write_at` through `terminal_write`: `from_utf8(buf).unwrap()` panics on
bytes that are not UTF-8, and the string is printed character by character; the count is the
buffer's length. Returns the bytes that reach the console. -/
def writeAt (t : TerminalINode) (buf : List UInt8) : Except Panic (Except FsError (List UInt8)) :=
  if !t.writable then .ok (.error .invalidParam)
  else match String.fromUTF8? ⟨buf.toArray⟩ with
    | none => .error .unwrapErr
    | some s => .ok (.ok (putChars s))

end TerminalINode

namespace PipeINode

/-- `PipeINode::new_pipe`. -/
def newPipe : PipeINode := ⟨[]⟩

/-- `PipeINode::read_at`: reading does not consume; past the end it reads nothing. -/
def readAt (p : PipeINode) (offset bufLen : Nat) : List UInt8 :=
  if offset > p.buf.length then []
  else (p.buf.drop offset).take (min (p.buf.length - offset) bufLen)

/-- `PipeINode::write_at`: the bytes are appended. -/
def writeAt (p : PipeINode) (buf : List UInt8) : Nat × PipeINode :=
  (buf.length, ⟨p.buf ++ buf⟩)

end PipeINode

namespace INode

/-- `INode::read_at`: the bytes copied to the front of a buffer of `bufLen` bytes, or a
panic; `input` is the byte the console would return. -/
def readAt (i : INode) (offset bufLen : Nat) (input : UInt8) :
    Except Panic (Except FsError (List UInt8)) :=
  match i with
  | .regFile r => r.readAt offset bufLen
  | .terminal t => t.readAt bufLen input
  | .pipe p => .ok (.ok (p.readAt offset bufLen))

/-- `INode::write_at`: the count, the inode after the write, and the bytes printed. -/
def writeAt (i : INode) (offset : Nat) (buf : List UInt8) :
    Except Panic (Except FsError (Nat × INode × List UInt8)) :=
  match i with
  | .regFile r => .ok ((r.writeAt offset buf).map fun (n, r) => (n, .regFile r, []))
  | .terminal t => (t.writeAt buf).map fun r => r.map fun out => (buf.length, .terminal t, out)
  | .pipe p => let (n, p) := p.writeAt buf; .ok (.ok (n, .pipe p, []))

/-- `INode::file_size`: a terminal reports 0. -/
def fileSize : INode → Nat
  | .regFile r => r.file.length
  | .terminal _ => 0
  | .pipe p => p.buf.length

/-- `INode::file_data`. -/
def fileData : INode → List UInt8
  | .regFile r => r.file
  | .terminal t => t.file
  | .pipe p => p.buf

end INode

end NaiveOs
