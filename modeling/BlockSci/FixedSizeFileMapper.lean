import BlockSci.AppendPath

/-! `FixedSizeFileMapper<T, write>`: a dense array of records of `S = sizeof(T)` cells over
a `SimpleFileMapper`, and its `findAll` scan. -/
namespace BlockSci
variable {α : Type} {S : Nat}

theorem SimpleFileMapper.write_records {s s' : SimpleFileMapper α} {t : List α} {full : Bool}
    (ht : t.length = S) (hf : S ∣ s.file.length) (hb : S ∣ s.buffer.length)
    (hw : S ∣ s.writePos) (h : s.write t = .ok (full, s')) :
    S ∣ s'.file.length ∧ S ∣ s'.buffer.length ∧ S ∣ s'.writePos := by
  obtain ⟨-, hpos, -, hfb⟩ := s.write_spec t h
  have hle : s.writePos ≤ s.size := by
    rcases (s.write_ok_iff t).mp ⟨_, h⟩ with h' | ⟨h', -⟩ <;> simp [SimpleFileMapper.size] at * <;> omega
  have hsize := s.size_write t h hle
  have hmax : S ∣ max s.size (s.writePos+t.length) := by
    rcases le_total s.size (s.writePos+t.length) with hm | hm
    · rw [max_eq_right hm, ht]; exact Nat.dvd_add hw (Nat.dvd_refl _)
    · rw [max_eq_left hm]; exact Nat.dvd_add hf hb
  have hlen : s'.file.length+s'.buffer.length = max s.size (s.writePos+t.length) := hsize
  refine ⟨?_, ?_, by rw [hpos, ht]; exact Nat.dvd_add hw (Nat.dvd_refl _)⟩
  · rcases hfb with hfl | hbn
    · rw [hfl]; exact hf
    · rw [← hlen] at hmax; simpa [hbn] using hmax
  · rcases hfb with hfl | hbn
    · have : s'.buffer.length = max s.size (s.writePos+t.length)-s.file.length := by omega
      rw [this]; exact Nat.dvd_sub' hmax hf
    · simp [hbn]

theorem SimpleFileMapper.memcpy_lengths {s s' : SimpleFileMapper α} {p : Ptr} {v : List α} {c : Int}
    (h : s.memcpy p v c = .ok s') : s'.file.length = s.file.length ∧
      s'.buffer.length = s.buffer.length ∧ s'.writePos = s.writePos := by
  unfold SimpleFileMapper.memcpy at h
  split at h
  · cases h
  · split at h <;> (try split at h) <;> simp only [Except.ok.injEq, reduceCtorEq] at h <;> subst h
    · exact ⟨length_overwrite (by simp; omega), rfl, rfl⟩
    · exact ⟨rfl, length_overwrite (by simp; omega), rfl⟩

/-- `FixedSizeFileMapper<T, write>` with `S = sizeof(T)`. The mapping, the buffer and the
cursor stay at record boundaries, so that every record lies wholly in the mapping or wholly
in the buffer. -/
structure FixedSizeFileMapper (α : Type) (S : Nat) where
  dataFile : SimpleFileMapper α
  file_dvd : S ∣ dataFile.file.length
  buffer_dvd : S ∣ dataFile.buffer.length
  writePos_dvd : S ∣ dataFile.writePos

namespace FixedSizeFileMapper
variable (m : FixedSizeFileMapper α S)

def ofFile (file : List α) (h : S ∣ file.length) (maxBufferSize : Nat := 50000000) :
    FixedSizeFileMapper α S :=
  ⟨SimpleFileMapper.ofFile file maxBufferSize, h, by simp [SimpleFileMapper.ofFile], h⟩

def getPos (_ : FixedSizeFileMapper α S) (index : Nat) : Nat := index*S

def size : Nat := m.dataFile.size/S

def getDataAtIndex (index : Nat) : Except Fault Ptr :=
  if index < m.size then m.dataFile.getDataAtOffset (m.getPos index)
  else .error .indexInRange

/-- `*(*this)[index]`: the `sizeof(T)` cells of the record `operator[]` points at. -/
def deref (index : Nat) : Except Fault (List α) :=
  m.getDataAtIndex index >>= fun p =>
    match m.dataFile.read p S with
    | some x => .ok x
    | none => .error .outOfRegion

def record (index : Nat) : List α := (m.dataFile.contents.drop (index*S)).take S

def seekEnd : FixedSizeFileMapper α S :=
  ⟨m.dataFile.seekEnd, m.file_dvd, m.buffer_dvd, Nat.dvd_add m.file_dvd m.buffer_dvd⟩

def seek (index : Nat) : FixedSizeFileMapper α S :=
  ⟨m.dataFile.seek (m.getPos index), m.file_dvd, m.buffer_dvd, Nat.dvd_mul_left _ _⟩

def clearBuffer : FixedSizeFileMapper α S :=
  ⟨m.dataFile.clearBuffer, by simpa using Nat.dvd_add m.file_dvd m.buffer_dvd, by simp,
    m.writePos_dvd⟩

def reload : FixedSizeFileMapper α S := m.clearBuffer

theorem dvd_min {a b : Nat} (ha : S ∣ a) (hb : S ∣ b) : S ∣ min a b := by
  rcases le_total a b with h | h
  · rwa [min_eq_left h]
  · rwa [min_eq_right h]

theorem dvd_max {a b : Nat} (ha : S ∣ a) (hb : S ∣ b) : S ∣ max a b := by
  rcases le_total a b with h | h
  · rwa [max_eq_right h]
  · rwa [max_eq_left h]

def truncate [Zero α] (index : Nat) : FixedSizeFileMapper α S :=
  ⟨m.dataFile.truncate (m.getPos index),
    by
      have : min (index*S) m.dataFile.contents.length+(index*S-m.dataFile.contents.length) =
        index*S := by omega
      simp [← SimpleFileMapper.length_contents, getPos, this],
    by simp, dvd_min m.writePos_dvd (Nat.dvd_mul_left S index)⟩

@[simp] theorem dataFile_ofFile (l : List α) (h : S ∣ l.length) (n : Nat) :
    (ofFile l h n).dataFile = SimpleFileMapper.ofFile l n := rfl
theorem size_eq : m.size = m.dataFile.size/S := rfl
@[simp] theorem dataFile_seekEnd : m.seekEnd.dataFile = m.dataFile.seekEnd := rfl
@[simp] theorem dataFile_seek (i : Nat) : (m.seek i).dataFile = m.dataFile.seek (i*S) := rfl
@[simp] theorem dataFile_clearBuffer : m.clearBuffer.dataFile = m.dataFile.clearBuffer := rfl
@[simp] theorem dataFile_reload : m.reload.dataFile = m.dataFile.clearBuffer := rfl
@[simp] theorem dataFile_truncate [Zero α] (i : Nat) :
    (m.truncate i).dataFile = m.dataFile.truncate (i*S) := rfl

def store (p : Ptr) (x : α) : Except Fault (FixedSizeFileMapper α S) :=
  match h : m.dataFile.memcpy p [x] 1 with
  | .ok d =>
    have hd := SimpleFileMapper.memcpy_lengths h
    .ok ⟨d, hd.1 ▸ m.file_dvd, hd.2.1 ▸ m.buffer_dvd, hd.2.2 ▸ m.writePos_dvd⟩
  | .error e => .error e

theorem store_of_dataFile {p : Ptr} {x : α} {d : SimpleFileMapper α}
    (h : m.dataFile.memcpy p [x] 1 = .ok d) : ∃ m', m.store p x = .ok m' ∧ m'.dataFile = d := by
  unfold store
  split <;> rename_i heq <;> rw [h] at heq
  · simp only [Except.ok.injEq] at heq
    subst heq
    exact ⟨_, rfl, rfl⟩
  · cases heq

def write (t : List α) (ht : t.length = S) : Except Fault (Bool × FixedSizeFileMapper α S) :=
  match h : m.dataFile.write t with
  | .ok (full, d) =>
    have hd := SimpleFileMapper.write_records ht m.file_dvd m.buffer_dvd m.writePos_dvd h
    .ok (full, ⟨d, hd.1, hd.2.1, hd.2.2⟩)
  | .error e => .error e

theorem write_of_dataFile {t : List α} {ht : t.length = S} {full : Bool} {d : SimpleFileMapper α}
    (h : m.dataFile.write t = .ok (full, d)) : ∃ m', m.write t ht = .ok (full, m') ∧ m'.dataFile = d := by
  unfold write
  split <;> rename_i heq <;> rw [h] at heq
  · simp only [Except.ok.injEq, Prod.mk.injEq] at heq
    obtain ⟨rfl, rfl⟩ := heq
    exact ⟨_, rfl, rfl⟩
  · cases heq

theorem dataFile_write {m m' : FixedSizeFileMapper α S} {t : List α} {ht : t.length = S}
    {full : Bool} (h : m.write t ht = .ok (full, m')) : m.dataFile.write t = .ok (full, m'.dataFile) := by
  unfold write at h
  split at h
  · rename_i heq
    simp only [Except.ok.injEq, Prod.mk.injEq] at h
    rw [heq, ← h.2, ← h.1]
  · cases h

/-- The `while` loop of `findAll`, for at most `fuel` rounds. `index` is the `uint32_t`
counter: `index++` wraps at `2^32`, and `index < itemCount` compares it with the 64-bit
count. `none`: the loop has not ended within `fuel` rounds. The source reads the element
as `*this(index)`; the model reads it through `operator[]`. -/
def findAllLoop (test : List α → Bool) (itemCount : Nat) :
    Nat → Nat → List Nat → Option (Except Fault (List Nat))
  | 0, _, _ => none
  | fuel+1, index, indexes =>
    if index < itemCount then
      match m.deref index with
      | .ok nextItem =>
        findAllLoop test itemCount fuel ((index+1) % 2^32)
          (if test nextItem then indexes ++ [index] else indexes)
      | .error e => some (.error e)
    else some (.ok indexes)

def findAll (test : List α → Bool) (fuel : Nat) : Option (Except Fault (List Nat)) :=
  m.findAllLoop test m.size fuel 0 []

inductive Op (α : Type) (S : Nat) where
  | write (t : List α) (ht : t.length = S)
  | seek (index : Nat)
  | seekEnd
  | clearBuffer
  | reload
  | truncate (index : Nat)

def step [Zero α] : Op α S → Except Fault (FixedSizeFileMapper α S)
  | .write t ht => (m.write t ht).map Prod.snd
  | .seek i => .ok (m.seek i)
  | .seekEnd => .ok m.seekEnd
  | .clearBuffer => .ok m.clearBuffer
  | .reload => .ok m.reload
  | .truncate i => .ok (m.truncate i)

def run [Zero α] : FixedSizeFileMapper α S → List (Op α S) → Except Fault (FixedSizeFileMapper α S)
  | m, [] => .ok m
  | m, op :: ops => m.step op >>= fun m' => run m' ops

def Op.written : Op α S → Option (List α)
  | .write t _ => some t
  | _ => none

def Op.Appends : Op α S → Prop
  | .write .. | .clearBuffer | .reload => True
  | _ => False

/-! Records and the pointers `operator[]` returns. -/

theorem add_le_of_dvd {a b : Nat} (ha : S ∣ a) (hb : S ∣ b) (h : a < b) : a+S ≤ b := by
  obtain ⟨x, rfl⟩ := ha
  obtain ⟨y, rfl⟩ := hb
  have : x < y := Nat.lt_of_mul_lt_mul_left h
  calc S*x+S = S*(x+1) := (Nat.mul_succ S x).symm
    _ ≤ S*y := Nat.mul_le_mul_left S this

theorem mul_add_le_size (hS : 0 < S) {index : Nat} (hi : index < m.size) :
    index*S+S ≤ m.dataFile.size := by
  have := (Nat.le_div_iff_mul_le hS).mp (show index+1 ≤ m.size from hi)
  rw [Nat.add_mul, Nat.one_mul] at this; exact this

theorem deref_of_lt (hS : 0 < S) {index : Nat} (hi : index < m.size)
    (hsz : m.dataFile.size ≤ InvalidFileIndex) : m.deref index = .ok (m.record index) := by
  have hle := m.mul_add_le_size hS hi
  have hdvd : S ∣ index*S := Nat.dvd_mul_left S index
  unfold SimpleFileMapper.size at hle hsz
  simp only [deref, getDataAtIndex, if_pos hi, getPos, SimpleFileMapper.getDataAtOffset]
  rw [if_pos (.inl (by omega)), if_neg (by omega)]
  by_cases hF : index*S < m.dataFile.file.length
  · have hS' := add_le_of_dvd hdvd m.file_dvd hF
    simp only [if_pos hF, Bind.bind, Except.bind, SimpleFileMapper.read, if_pos hS', record,
      SimpleFileMapper.contents, List.drop_append_eq_append_drop,
      List.take_append_eq_append_take, List.length_drop]
    simp [show S-(m.dataFile.file.length-index*S) = 0 by omega]
  · simp only [if_neg hF, Bind.bind, Except.bind, SimpleFileMapper.read]
    rw [if_pos (by omega)]
    simp [record, SimpleFileMapper.contents, List.drop_append_eq_append_drop,
      List.drop_eq_nil_of_le (show m.dataFile.file.length ≤ index*S by omega)]

theorem store_at (hS : 0 < S) {index i : Nat} (hi : index < m.size) (hiS : i < S)
    (hsz : m.dataFile.size ≤ InvalidFileIndex) (x : α) :
    ∃ p m', m.getDataAtIndex index = .ok p ∧ m.store (p.add i) x = .ok m' ∧
      m'.dataFile.contents = m.dataFile.contents.set (index*S+i) x ∧
      m'.dataFile.writePos = m.dataFile.writePos ∧
      m'.dataFile.file.length = m.dataFile.file.length ∧
      m'.dataFile.buffer.length = m.dataFile.buffer.length := by
  have hle := m.mul_add_le_size hS hi
  unfold SimpleFileMapper.size at hle hsz
  have hp : m.getDataAtIndex index = m.dataFile.getDataAtOffset (index*S) := if_pos hi
  simp only [SimpleFileMapper.getDataAtOffset] at hp
  rw [if_pos (.inl (by omega)), if_neg (by omega)] at hp
  by_cases hF : index*S < m.dataFile.file.length
  · have hS' := add_le_of_dvd (Nat.dvd_mul_left S index) m.file_dvd hF
    rw [if_pos hF] at hp
    have hd : m.dataFile.memcpy ((Ptr.mapped (index*S)).add i) [x] 1 =
        .ok { m.dataFile with file := m.dataFile.file.set (index*S+i) x } := by
      simp only [Ptr.add, SimpleFileMapper.memcpy]
      rw [if_neg (by omega), if_pos (by simp; omega)]
      simp [overwrite_singleton x (show index*S+i < m.dataFile.file.length by omega)]
    obtain ⟨m', hm', hd'⟩ := m.store_of_dataFile hd
    refine ⟨_, m', hp, hm', ?_, by rw [hd'], by simp [hd'], by rw [hd']⟩
    simp [hd', SimpleFileMapper.contents, List.set_append,
      show index*S+i < m.dataFile.file.length by omega]
  · rw [if_neg hF] at hp
    have hd : m.dataFile.memcpy ((Ptr.buffered (index*S-m.dataFile.file.length)).add i) [x] 1 =
        .ok { m.dataFile with
          buffer := m.dataFile.buffer.set (index*S-m.dataFile.file.length+i) x } := by
      simp only [Ptr.add, SimpleFileMapper.memcpy]
      rw [if_neg (by omega), if_pos (by simp; omega)]
      simp [overwrite_singleton x
        (show index*S-m.dataFile.file.length+i < m.dataFile.buffer.length by omega)]
    obtain ⟨m', hm', hd'⟩ := m.store_of_dataFile hd
    refine ⟨_, m', hp, hm', ?_, by rw [hd'], by rw [hd'], by simp [hd']⟩
    simp only [hd', SimpleFileMapper.contents, List.set_append,
      if_neg (show ¬ index*S+i < m.dataFile.file.length by omega)]
    congr 2; omega

end FixedSizeFileMapper
end BlockSci
