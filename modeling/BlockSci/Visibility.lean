import BlockSci.IndexedCursor
import BlockSci.Persistence

/-! What a reader sees along a writer's run without `seek` and `truncate`: the files on disk
only grow, so a crash never takes back what a reader has seen. -/
namespace BlockSci

namespace SimpleFileMapper
variable {α : Type} {s s' : SimpleFileMapper α}

theorem file_length_le_write {v : List α} {full : Bool} (h : s.write v = .ok (full, s')) :
    s.file.length ≤ s'.file.length := by
  obtain ⟨hc, -, -, hfb⟩ := s.write_spec v h
  rcases hfb with hf | hb
  · exact hf.ge
  · have h1 := congrArg List.length hc
    have h2 := length_le_overwrite s.contents v s.writePos
    simp only [contents, List.length_append, hb, List.length_nil, Nat.add_zero] at h1 h2
    omega

theorem file_length_truncate [Zero α] (o : Nat) : (s.truncate o).file.length = o := by
  have h := s.size_truncate (o := o)
  rwa [size, truncate_buffer, List.length_nil, Nat.add_zero] at h

theorem getDataAtOffset_ofFile_mono {F F' : List α} {o : Nat} {p : Ptr} (hF : F.length ≤ F'.length)
    (h : (ofFile F).getDataAtOffset o = .ok p) : (ofFile F').getDataAtOffset o = .ok p := by
  unfold getDataAtOffset at h ⊢
  simp only [file_ofFile, buffer_ofFile, List.length_nil, Nat.add_zero] at h ⊢
  by_cases hinv : o = InvalidFileIndex
  · simpa [hinv] using h
  by_cases ho : o < F.length
  · rw [if_pos (.inl ho), if_neg hinv, if_pos ho] at h
    rw [if_pos (.inl (by omega)), if_neg hinv, if_pos (by omega)]
    exact h
  · rw [if_neg (by omega)] at h
    cases h

theorem read_ofFile_mono {F F' : List α} {p : Ptr} {len : Nat} {b : List α}
    (hagree : ∀ j < F.length, F'[j]? = F[j]?) (h : (ofFile F).read p len = some b) :
    (ofFile F').read p len = some b := by
  cases p with
  | null => cases h
  | buffered pos => simpa [read] using h
  | mapped pos =>
    simp only [read, file_ofFile] at h ⊢
    split_ifs at h with hle
    cases h
    have hF : F.length ≤ F'.length := by
      by_contra hlt
      have := hagree F'.length (by omega)
      rw [List.getElem?_eq_none (Nat.le_refl _)] at this
      exact absurd this.symm (by simp [List.getElem?_eq_some_iff]; omega)
    rw [if_pos (by omega)]
    refine congrArg some (List.ext_getElem? fun j => ?_)
    rw [List.getElem?_take, List.getElem?_take, List.getElem?_drop, List.getElem?_drop]
    split_ifs with hj
    · exact hagree _ (by omega)
    · rfl

end SimpleFileMapper

namespace IndexedFileMapper
variable {T : Streams} {m m' : IndexedFileMapper T}

theorem step_files_grow {op : Op T} (hf : op.forward = true) (h : m.step op = .ok m') :
    m.dataFile.file.length ≤ m'.dataFile.file.length ∧
      m.indexFile.dataFile.file.length ≤ m'.indexFile.dataFile.file.length := by
  cases op with
  | write t =>
    simp only [step, write, writeNewImp, Nat.mod_eq_zero_of_dvd t.align_dvd, if_true] at h
    obtain ⟨⟨_, idx⟩, hi, h⟩ := except_bind_eq_ok.mp h
    obtain ⟨⟨_, d⟩, hd, h⟩ := except_bind_eq_ok.mp h
    cases h
    exact ⟨SimpleFileMapper.file_length_le_write hd,
      SimpleFileMapper.file_length_le_write (FixedSizeFileMapper.dataFile_write hi)⟩
  | writeAt i k t =>
    simp only [step, writeAt, writeUpdateImp] at h
    split_ifs at h
    obtain ⟨p, -, h⟩ := except_bind_eq_ok.mp h
    obtain ⟨idx, hi, h⟩ := except_bind_eq_ok.mp h
    obtain ⟨⟨_, d⟩, hd, h⟩ := except_bind_eq_ok.mp h
    cases h
    exact ⟨SimpleFileMapper.file_length_le_write hd,
      (SimpleFileMapper.memcpy_lengths (FixedSizeFileMapper.store_dataFile hi)).1.ge⟩
  | clearBuffer | reload =>
    cases h
    exact ⟨by simp [clearBuffer, reload], by simp [clearBuffer, reload]⟩
  | truncate | seek => cases hf
  | seekEnd => cases h; exact ⟨le_rfl, le_rfl⟩
  | grow k d =>
    cases h
    have hi := m.size_index_eq
    simp only [grow, FixedSizeFileMapper.dataFile_truncate, SimpleFileMapper.file_length_truncate,
      FixedSizeFileMapper.getPos, SimpleFileMapper.size] at hi ⊢
    constructor
    · omega
    · rw [Nat.add_mul, ← size, ← hi]
      omega

theorem run_files_grow {ops : List (Op T)} (hf : ∀ op ∈ ops, op.forward = true)
    (h : m.run ops = .ok m') :
    m.dataFile.file.length ≤ m'.dataFile.file.length ∧
      m.indexFile.dataFile.file.length ≤ m'.indexFile.dataFile.file.length := by
  induction ops generalizing m with
  | nil => cases h; exact ⟨le_rfl, le_rfl⟩
  | cons op ops ih =>
    obtain ⟨m₁, h₁, h⟩ := except_bind_eq_ok.mp h
    obtain ⟨hd₁, hi₁⟩ := step_files_grow (hf op (.head _)) h₁
    obtain ⟨hd, hi⟩ := ih (fun o ho => hf o (.tail _ ho)) h
    exact ⟨hd₁.trans hd, hi₁.trans hi⟩

theorem openFiles_getDataAtIndex_zero {k : Nat} (hk : k < m.fileSize)
    (hsz : m.indexFile.dataFile.file.length ≤ InvalidFileIndex) :
    m.openFiles.getDataAtIndex 0 k =
      (SimpleFileMapper.ofFile m.dataFile.file).getDataAtOffset (m.view.cell T k 0) := by
  rw [m.openFiles.getDataAtIndex_eq_getDataAtOffset (by rwa [size_openFiles])
    (by rwa [openFiles_indexFile, SimpleFileMapper.size_ofFile]) T.indexCount_pos,
    cell_openFiles m T.indexCount_pos hk, openFiles_dataFile]

/-- A crash never takes back what a reader has seen. Along a run without `seek` or `truncate`
from a store with both cursors at the end (the index within `OffsetType` at the end of the
run), every entry whose stream-0 payload a reader over the files on disk could read at the
start, a reader over the files at the end reads through the same pointer, as the same bytes. -/
theorem run_forward_openFiles_keeps (hm : m.AtEnd) {ops : List (Op T)}
    (hf : ∀ op ∈ ops, op.forward = true) (h : m.run ops = .ok m')
    (hsz : m'.indexFile.dataFile.size ≤ InvalidFileIndex) {k : Nat} (hk : k < m.fileSize)
    {p : Ptr} {len : Nat} {b : List UInt8} (hp : m.openFiles.getDataAtIndex 0 k = .ok p)
    (hr : m.openFiles.dataFile.read p len = some b) :
    m'.openFiles.getDataAtIndex 0 k = .ok p ∧ m'.openFiles.dataFile.read p len = some b := by
  have hkeep := keeps_run (keeps_cursors hm) hf h
  obtain ⟨hD, hI⟩ := run_files_grow hf h
  have hsz' : m'.indexFile.dataFile.file.length ≤ InvalidFileIndex :=
    (Nat.le_add_right _ _).trans hsz
  have hk' : k < m'.fileSize := Nat.lt_of_lt_of_le hk (Nat.div_le_div_right hI)
  -- the writer's stream-0 cell of entry `k` is kept
  have hcell : m'.view.cell T k 0 = m.view.cell T k 0 := by
    have hkI : k*T.indexCount < m.view.index.length := by
      have := mul_add_lt_mul T.indexCount_pos (Nat.lt_of_lt_of_le hk (Nat.div_le_div_right
        (Nat.le_add_right _ m.indexFile.dataFile.buffer.length)))
      rwa [length_index, size_index_eq]
    simp only [View.cell, List.getD_eq_getElem?_getD, Nat.add_zero]
    exact congrArg (·.getD 0) (hkeep.stream0 k hkI)
  -- so are the data bytes on disk at the start
  have hdata : m'.view.data.take m.view.data.length = m.view.data := hkeep.data
  have hagree : ∀ j < m.dataFile.file.length, m'.dataFile.file[j]? = m.dataFile.file[j]? :=
    fun j hj => by
      have hjd : j < m.view.data.length := by
        rw [length_data, SimpleFileMapper.size]; omega
      rw [← List.getElem?_append_left (hj.trans_le hD), ← List.getElem?_append_left hj]
      show m'.view.data[j]? = m.view.data[j]?
      rw [← List.getElem?_take_of_lt hjd, hdata]
  rw [openFiles_getDataAtIndex_zero hk (hI.trans hsz')] at hp
  rw [openFiles_getDataAtIndex_zero hk' hsz', hcell, openFiles_dataFile]
  rw [openFiles_dataFile] at hr
  exact ⟨SimpleFileMapper.getDataAtOffset_ofFile_mono hD hp,
    SimpleFileMapper.read_ofFile_mono hagree hr⟩

theorem run_forward_openFiles_keeps_oneEntry :
    (ofFiles [7] [0, InvalidFileIndex] (by decide) : IndexedFileMapper byteThenWord).AtEnd ∧
      (∀ op ∈ ([.write (.value ⟨[8], rfl⟩), .clearBuffer, .grow 1 1, .write (.value ⟨[9], rfl⟩)] :
        List (Op byteThenWord)), op.forward = true) ∧
      0 < (ofFiles [7] [0, InvalidFileIndex] (by decide) : IndexedFileMapper byteThenWord).fileSize ∧
      (ofFiles [7] [0, InvalidFileIndex] (by decide) : IndexedFileMapper byteThenWord).openFiles.getDataAtIndex
        0 0 = .ok (.mapped 0) ∧
      (ofFiles [7] [0, InvalidFileIndex] (by decide) : IndexedFileMapper byteThenWord).openFiles.dataFile.read
        (.mapped 0) 1 = some [7] ∧
      ∃ m', (ofFiles [7] [0, InvalidFileIndex] (by decide) : IndexedFileMapper byteThenWord).run
          [.write (.value ⟨[8], rfl⟩), .clearBuffer, .grow 1 1, .write (.value ⟨[9], rfl⟩)] = .ok m' ∧
        m'.indexFile.dataFile.size ≤ InvalidFileIndex ∧
        m'.openFiles.getDataAtIndex 0 0 = .ok (.mapped 0) ∧
        m'.openFiles.dataFile.read (.mapped 0) 1 = some [7] :=
  ⟨⟨rfl, rfl⟩, by decide, by decide, by rfl, by rfl, _, by rfl, by decide,
    @run_forward_openFiles_keeps _ (ofFiles [7] [0, InvalidFileIndex] (by decide)) _ ⟨rfl, rfl⟩
      [.write (.value ⟨[8], rfl⟩), .clearBuffer, .grow 1 1, .write (.value ⟨[9], rfl⟩)] (by decide)
      (by rfl) (by decide) _ (by decide) _ _ _ (by rfl) (by rfl)⟩

end IndexedFileMapper
end BlockSci
