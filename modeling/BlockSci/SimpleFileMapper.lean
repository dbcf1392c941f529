import BlockSci.Layout

/-! `SimpleFileMapper<write>` of `file_mapper.hpp`: a mapped file, an append buffer that
extends it past its end, and a write cursor. -/
namespace BlockSci

/-- `InvalidFileIndex`, the largest `int64_t`. Offsets are `OffsetType` (`int64_t`) in the
source; every offset the modelled code stores is non-negative, so the model keeps `Nat`. -/
def InvalidFileIndex : Nat := 2^63 - 1

/-- What stops a call: a failed `assert`, or an access the C++ leaves undefined. -/
inductive Fault where
  /-- `assert(writeAmount > 0)` in `write`. -/
  | writeAmountPositive
  /-- `assert(writePos == fileEnd + buffer.size())` in `write`. -/
  | writePosAtEnd
  /-- `assert(offset < fileEnd + buffer.size() || offset == InvalidFileIndex)`. -/
  | offsetInRange
  /-- `assert(index < size())`. -/
  | indexInRange
  /-- `assert(amountToWrite % alignof(...) == 0)` in `writeNewImp` and `writeUpdateImp`. -/
  | misalignedWrite
  /-- `static_assert(indexNum > 0)` or `static_assert(indexNum < indexCount)`: no compiled
  program makes such a call. -/
  | staticAssert
  /-- `memcpy` given a negative `OffsetType` count, cast to a huge `size_t`. -/
  | negativeCopy
  /-- An access through a pointer past the end of the mapping or of the buffer. -/
  | outOfRegion
  deriving DecidableEq, Repr

inductive Ptr where
  | null
  | mapped (pos : Nat)
  | buffered (pos : Nat)
  deriving DecidableEq, Repr

def Ptr.add : Ptr → Nat → Ptr
  | .null, _ => .null
  | .mapped p, i => .mapped (p+i)
  | .buffered p, i => .buffered (p+i)

/-- What `memcpy` does to a region: the cells `[pos, pos + b.length)` become `b`. -/
def overwrite {α : Type} (l : List α) (pos : Nat) (b : List α) : List α :=
  l.take pos ++ b ++ l.drop (pos+b.length)

/-- The state of a `SimpleFileMapper<write>`: the mapped file, `buffer`, `writePos` and the
static `maxBufferSize`, counted in cells; the source's 50000000 counts bytes. -/
structure SimpleFileMapper (α : Type) where
  file : List α
  buffer : List α
  writePos : Nat
  maxBufferSize : Nat := 50000000

namespace SimpleFileMapper
variable {α : Type} (s : SimpleFileMapper α)

def ofFile (file : List α) (maxBufferSize : Nat := 50000000) : SimpleFileMapper α :=
  { file, buffer := [], writePos := file.length, maxBufferSize }

def size : Nat := s.file.length+s.buffer.length

def contents : List α := s.file ++ s.buffer

def getWriteOffset : Nat := s.writePos

def getDataAtOffset (offset : Nat) : Except Fault Ptr :=
  if offset < s.file.length+s.buffer.length ∨ offset = InvalidFileIndex then
    if offset = InvalidFileIndex then .ok .null
    else if offset < s.file.length then .ok (.mapped offset)
    else .ok (.buffered (offset-s.file.length))
  else .error .offsetInRange

def getWritePos : Ptr :=
  if s.writePos < s.file.length then .mapped s.writePos
  else if s.writePos < s.file.length+s.buffer.length then .buffered (s.writePos-s.file.length)
  else .null

def writeSpace : Int :=
  if s.writePos < s.file.length then (s.file.length : Int)-s.writePos
  else if s.writePos < s.file.length+s.buffer.length then
    ((s.writePos : Int)-s.file.length)-s.buffer.length
  else 0

def memcpy (dest : Ptr) (valuePos : List α) (count : Int) : Except Fault (SimpleFileMapper α) :=
  if count < 0 then .error .negativeCopy else
  match dest with
  | .mapped p =>
    if p+count.toNat ≤ s.file.length then
      .ok { s with file := overwrite s.file p (valuePos.take count.toNat) }
    else .error .outOfRegion
  | .buffered p =>
    if p+count.toNat ≤ s.buffer.length then
      .ok { s with buffer := overwrite s.buffer p (valuePos.take count.toNat) }
    else .error .outOfRegion
  | .null => .error .outOfRegion

def read (p : Ptr) (len : Nat) : Option (List α) :=
  match p with
  | .mapped pos => if pos+len ≤ s.file.length then some ((s.file.drop pos).take len) else none
  | .buffered pos =>
    if pos+len ≤ s.buffer.length then some ((s.buffer.drop pos).take len) else none
  | .null => none

/-- Modelled from the spec: `clearBuffer`, declared here and defined in `file_mapper.cpp`,
grows the file by the buffer, copies the buffer into the new tail, then empties it. -/
def clearBuffer : SimpleFileMapper α := { s with file := s.file ++ s.buffer, buffer := [] }

def reload : SimpleFileMapper α := s.clearBuffer

def seekEnd : SimpleFileMapper α := { s with writePos := s.file.length+s.buffer.length }

def seek (offset : Nat) : SimpleFileMapper α := { s with writePos := offset }

/-- Modelled from the spec: `truncate(o)` flushes, resizes the file to `o` cells (zero
cells past the old end) and clamps the cursor to `[0, o]`. -/
def truncate [Zero α] (offset : Nat) : SimpleFileMapper α :=
  { s with file := (s.file ++ s.buffer).take offset ++ List.replicate (offset-s.size) 0,
           buffer := [], writePos := min s.writePos offset }

def writeRegion (valuePos : List α) : Except Fault (SimpleFileMapper α × List α) :=
  let writeAmount := min (valuePos.length : Int) s.writeSpace
  (s.memcpy s.getWritePos valuePos writeAmount).map fun s' =>
    ({ s' with writePos := (s.writePos+writeAmount).toNat }, valuePos.drop writeAmount.toNat)

def writeEnd (fileEnd : Nat) (valuePos : List α) : Except Fault (Bool × SimpleFileMapper α) :=
  if s.writePos = fileEnd+s.buffer.length then
    let s' := { s with buffer := s.buffer ++ valuePos, writePos := s.writePos+valuePos.length }
    let bufferFull := decide (s.maxBufferSize < s'.buffer.length)
    .ok (bufferFull, if bufferFull then s'.clearBuffer else s')
  else .error .writePosAtEnd

/-- Lines 230–251. The guard compares `writePos` with `buffer.size()`, not with
`fileEnd + buffer.size()`. -/
def writeBuffered (fileEnd : Nat) (valuePos : List α) : Except Fault (Bool × SimpleFileMapper α) :=
  if fileEnd ≤ s.writePos ∧ s.writePos < s.buffer.length then
    s.writeRegion valuePos >>= fun (s', rest) =>
      if rest.isEmpty then .ok (false, s') else s'.writeEnd fileEnd rest
  else s.writeEnd fileEnd valuePos

/-- `write(valuePos, amountToWrite)`, with `amountToWrite = valuePos.length`; the flag is
`true` when the call flushed the buffer. -/
def write (valuePos : List α) : Except Fault (Bool × SimpleFileMapper α) :=
  let fileEnd := s.file.length
  if s.writePos < fileEnd then
    if 0 < min (valuePos.length : Int) s.writeSpace then
      s.writeRegion valuePos >>= fun (s', rest) =>
        if rest.isEmpty then .ok (false, s') else s'.writeBuffered fileEnd rest
    else .error .writeAmountPositive
  else s.writeBuffered fileEnd valuePos

inductive Op (α : Type) where
  | write (valuePos : List α)
  | seek (offset : Nat)
  | seekEnd
  | clearBuffer
  | reload
  | truncate (offset : Nat)

def step [Zero α] : Op α → Except Fault (SimpleFileMapper α)
  | .write v => (s.write v).map Prod.snd
  | .seek o => .ok (s.seek o)
  | .seekEnd => .ok s.seekEnd
  | .clearBuffer => .ok s.clearBuffer
  | .reload => .ok s.reload
  | .truncate o => .ok (s.truncate o)

def run [Zero α] : SimpleFileMapper α → List (Op α) → Except Fault (SimpleFileMapper α)
  | s, [] => .ok s
  | s, op :: ops => s.step op >>= fun s' => run s' ops

/-! Frame lemmas: what each operation leaves alone. -/

@[simp] theorem size_ofFile (l : List α) (n : Nat) : (ofFile l n).size = l.length := by
  simp [ofFile, size]
@[simp] theorem length_contents : s.contents.length = s.size := by simp [contents, size]
@[simp] theorem clearBuffer_file : s.clearBuffer.file = s.file ++ s.buffer := rfl
@[simp] theorem clearBuffer_buffer : s.clearBuffer.buffer = [] := rfl
@[simp] theorem clearBuffer_writePos : s.clearBuffer.writePos = s.writePos := rfl
@[simp] theorem clearBuffer_maxBufferSize : s.clearBuffer.maxBufferSize = s.maxBufferSize := rfl
@[simp] theorem contents_clearBuffer : s.clearBuffer.contents = s.contents := by
  simp [contents]
@[simp] theorem size_clearBuffer : s.clearBuffer.size = s.size := by simp [size]
@[simp] theorem reload_eq : s.reload = s.clearBuffer := rfl
@[simp] theorem seek_file (o : Nat) : (s.seek o).file = s.file := rfl
@[simp] theorem seek_buffer (o : Nat) : (s.seek o).buffer = s.buffer := rfl
@[simp] theorem seek_writePos (o : Nat) : (s.seek o).writePos = o := rfl
@[simp] theorem seek_maxBufferSize (o : Nat) : (s.seek o).maxBufferSize = s.maxBufferSize := rfl
@[simp] theorem seekEnd_eq : s.seekEnd = s.seek s.size := rfl

section truncate
variable [Zero α] (o : Nat)
@[simp] theorem truncate_file : (s.truncate o).file =
    s.contents.take o ++ List.replicate (o-s.size) 0 := rfl
@[simp] theorem truncate_buffer : (s.truncate o).buffer = [] := rfl
@[simp] theorem truncate_writePos : (s.truncate o).writePos = min s.writePos o := rfl
@[simp] theorem truncate_maxBufferSize : (s.truncate o).maxBufferSize = s.maxBufferSize := rfl
@[simp] theorem size_truncate : (s.truncate o).size = o := by
  simp [size]; omega

theorem contents_truncate_of_le (h : s.size ≤ o) :
    (s.truncate o).contents = s.contents ++ List.replicate (o-s.size) 0 := by
  simp [contents, List.take_of_length_le (show (s.file ++ s.buffer).length ≤ o by simpa [size] using h)]
end truncate

/-! Reading through the pointer `getDataAtOffset` returns. -/

@[simp] theorem getDataAtOffset_invalid : s.getDataAtOffset InvalidFileIndex = .ok .null := by
  simp [getDataAtOffset]

theorem read_getDataAtOffset {o len : Nat} (hlt : o < s.size) (hlen : o+len ≤ s.size)
    (ho : o ≠ InvalidFileIndex) (hreg : o+len ≤ s.file.length ∨ s.file.length ≤ o) :
    ∃ p, s.getDataAtOffset o = .ok p ∧ p ≠ .null ∧
      s.read p len = some ((s.contents.drop o).take len) := by
  unfold size at hlt hlen
  by_cases hF : o < s.file.length
  · have hreg' : o+len ≤ s.file.length := by omega
    refine ⟨.mapped o, by simp [getDataAtOffset, ho, hF, show o < s.file.length+s.buffer.length by omega],
      nofun, ?_⟩
    simp [read, hreg', contents, List.drop_append_of_le_length hF.le,
      List.take_append_of_le_length (show len ≤ (s.file.drop o).length by simp; omega)]
  · refine ⟨.buffered (o-s.file.length),
      by simp [getDataAtOffset, ho, hF, show o < s.file.length+s.buffer.length by omega], nofun, ?_⟩
    simp [read, show o-s.file.length+len ≤ s.buffer.length by omega, contents,
      List.drop_append_eq_append_drop, List.drop_eq_nil_of_le (show s.file.length ≤ o by omega)]

theorem read_of_getDataAtOffset {o len : Nat} {p : Ptr} {b : List α}
    (hp : s.getDataAtOffset o = .ok p) (hr : s.read p len = some b) :
    o ≠ InvalidFileIndex ∧ o+len ≤ s.size ∧ (s.contents.drop o).take len = b := by
  unfold getDataAtOffset at hp
  split_ifs at hp with h₁ h₂ h₃ <;> cases hp
  · cases hr
  · simp only [read] at hr
    split_ifs at hr with h₄
    cases hr
    refine ⟨h₂, by unfold size; omega, ?_⟩
    simp [contents, List.drop_append_of_le_length (Nat.le_of_lt h₃),
      List.take_append_of_le_length (show len ≤ (s.file.drop o).length by simp; omega)]
  · simp only [read] at hr
    split_ifs at hr with h₄
    cases hr
    refine ⟨h₂, by unfold size; omega, ?_⟩
    simp [contents, List.drop_append_eq_append_drop, List.drop_eq_nil_of_le (show s.file.length ≤ o by omega)]

end SimpleFileMapper
end BlockSci
