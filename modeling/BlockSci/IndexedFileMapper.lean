import BlockSci.FixedSizeFileMapper

/-! `IndexedFileMapper<write, T₀, T₁, …>`: a data file of payloads and an index file holding,
per entry, a `FileIndex` record of one offset per stream. The index file is modelled at the
granularity of its `OffsetType` cells, so a record is `indexCount` cells. -/
namespace BlockSci

/-- The stream types `T₀, T₁, …`; there is always a `T₀`. -/
structure Streams where
  head : RecordType
  tail : List RecordType

namespace Streams
variable (T : Streams)

def indexCount : Nat := T.tail.length+1

def nthElement (i : Nat) : RecordType := (T.head :: T.tail).getD i T.head

@[simp] theorem nthElement_zero : T.nthElement 0 = T.head := rfl
theorem indexCount_pos : 0 < T.indexCount := Nat.succ_pos _
end Streams

def byteThenWord : Streams := ⟨⟨1, 1, Nat.one_pos, Nat.dvd_refl 1⟩, [⟨8, 8, by decide, Nat.dvd_refl 8⟩]⟩

/-- What a `write` overload is handed for a stream of type `M`. -/
inductive Payload (M : RecordType) where
  | value (t : M.Value)
  | arbitrary (d : ArbitraryLengthData M)

def Payload.bytes {M : RecordType} : Payload M → List UInt8
  | .value t => t.1
  | .arbitrary d => d.finalize.rawData

theorem Payload.align_dvd {M : RecordType} (p : Payload M) : M.align ∣ p.bytes.length := by
  cases p with
  | value t => simpa [bytes, t.2] using M.align_dvd
  | arbitrary d => exact d.align_dvd_size_finalize

theorem Payload.length_pos {M : RecordType} (p : Payload M) : 0 < p.bytes.length := by
  cases p with
  | value t => simpa [bytes, t.2] using M.size_pos
  | arbitrary d =>
    have := d.finalize.size_le
    exact Nat.lt_of_lt_of_le M.size_pos this

structure IndexedFileMapper (T : Streams) where
  dataFile : SimpleFileMapper UInt8
  indexFile : FixedSizeFileMapper Nat T.indexCount

namespace IndexedFileMapper
variable {T : Streams} (m : IndexedFileMapper T)

/-- The constructor over the `_data` and `_index` files. The index file's cells are 8-byte
`OffsetType`s, so its buffer flushes past `50000000/8` of them. -/
def ofFiles (data : List UInt8) (index : List Nat) (h : T.indexCount ∣ index.length) :
    IndexedFileMapper T :=
  ⟨.ofFile data, .ofFile index h (50000000/8)⟩

def empty : IndexedFileMapper T := ofFiles [] [] (Nat.dvd_zero _)

def size : Nat := m.indexFile.size

def getOffsets (index : Nat) : Except Fault (List Nat) := m.indexFile.deref index

def getOffset (indexNum index : Nat) : Except Fault Nat :=
  if indexNum < T.indexCount then
    m.indexFile.deref index >>= fun indexData =>
      let offset := indexData.getD indexNum 0
      if offset < m.dataFile.size ∨ offset = InvalidFileIndex then .ok offset
      else .error .offsetInRange
  else .error .staticAssert

def getDataAtIndex (indexNum index : Nat) : Except Fault Ptr :=
  if index < m.size then m.getOffset indexNum index >>= m.dataFile.getDataAtOffset
  else .error .indexInRange

def getData (index : Nat) : Except Fault (List Ptr) :=
  if index < m.size then
    if T.indexCount = 1 then (m.getDataAtIndex 0 index).map fun p => [p]
    else m.getOffsets index >>= fun offsets => offsets.mapM m.dataFile.getDataAtOffset
  else .error .indexInRange

def writeNewImp (valuePos : List UInt8) : Except Fault (IndexedFileMapper T) :=
  if valuePos.length % T.head.align = 0 then
    m.indexFile.write (m.dataFile.getWriteOffset :: List.replicate T.tail.length InvalidFileIndex)
        (by simp [Streams.indexCount]) >>= fun (_, indexFile) =>
      m.dataFile.write valuePos >>= fun (_, dataFile) => .ok ⟨dataFile, indexFile⟩
  else .error .misalignedWrite

def writeUpdateImp (indexNum addressNum : Nat) (valuePos : List UInt8) :
    Except Fault (IndexedFileMapper T) :=
  if 0 < indexNum ∧ indexNum < T.indexCount then
    if valuePos.length % (T.nthElement indexNum).align = 0 then
      m.indexFile.getDataAtIndex addressNum >>= fun fileIndex =>
        m.indexFile.store (fileIndex.add indexNum) m.dataFile.getWriteOffset >>= fun indexFile =>
          m.dataFile.write valuePos >>= fun (_, dataFile) => .ok ⟨dataFile, indexFile⟩
    else .error .misalignedWrite
  else .error .staticAssert

/-- `write(const T₀ &t)` and `write(ArbitraryLengthData<T₀> &t)`. -/
def write (t : Payload T.head) : Except Fault (IndexedFileMapper T) := m.writeNewImp t.bytes

/-- `write<indexNum>(addressNum, t)`, both overloads. -/
def writeAt (indexNum addressNum : Nat) (t : Payload (T.nthElement indexNum)) :
    Except Fault (IndexedFileMapper T) :=
  m.writeUpdateImp indexNum addressNum t.bytes

def reload : IndexedFileMapper T := ⟨m.dataFile.reload, m.indexFile.reload⟩

def clearBuffer : IndexedFileMapper T := ⟨m.dataFile.clearBuffer, m.indexFile.clearBuffer⟩

def truncate (index : Nat) : Except Fault (IndexedFileMapper T) :=
  if index < m.size then
    m.getOffsets index >>= fun offsets =>
      .ok ⟨m.dataFile.truncate (offsets.getD 0 0), m.indexFile.truncate index⟩
  else .ok m

def seekEnd : IndexedFileMapper T := ⟨m.dataFile.seekEnd, m.indexFile.seekEnd⟩

def seek (index dataOffset : Nat) : IndexedFileMapper T :=
  ⟨m.dataFile.seek dataOffset, m.indexFile.seek index⟩

def grow (indexSize dataSize : Nat) : IndexedFileMapper T :=
  ⟨m.dataFile.truncate (m.dataFile.size+dataSize), m.indexFile.truncate (m.indexFile.size+indexSize)⟩

inductive Op (T : Streams) where
  | write (t : Payload T.head)
  | writeAt (indexNum addressNum : Nat) (t : Payload (T.nthElement indexNum))
  | clearBuffer
  | reload
  | truncate (index : Nat)
  | seekEnd
  | seek (index dataOffset : Nat)
  | grow (indexSize dataSize : Nat)

def step : Op T → Except Fault (IndexedFileMapper T)
  | .write t => m.write t
  | .writeAt i k t => m.writeAt i k t
  | .clearBuffer => .ok m.clearBuffer
  | .reload => .ok m.reload
  | .truncate k => m.truncate k
  | .seekEnd => .ok m.seekEnd
  | .seek k o => .ok (m.seek k o)
  | .grow k d => .ok (m.grow k d)

def run : IndexedFileMapper T → List (Op T) → Except Fault (IndexedFileMapper T)
  | m, [] => .ok m
  | m, op :: ops => m.step op >>= fun m' => run m' ops

theorem run_append (m : IndexedFileMapper T) (ops ops' : List (Op T)) :
    m.run (ops ++ ops') = m.run ops >>= fun m' => m'.run ops' := by
  induction ops generalizing m with
  | nil => rfl
  | cons op ops ih =>
    simp only [List.cons_append, run]
    cases m.step op with
    | error e => rfl
    | ok m₁ => exact ih m₁

end IndexedFileMapper
end BlockSci
