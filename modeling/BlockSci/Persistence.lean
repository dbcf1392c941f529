import BlockSci.Refinement
import BlockSci.Durability

/-! What is on disk and what the next process sees: reopening loses nothing, a reader over
the files on disk agrees with the writer or fails `getOffset`'s assertion, and which in-place
rewrites complete. -/
namespace BlockSci

def Ptr.remap (fileEnd : Nat) : Ptr → Ptr
  | .buffered p => .mapped (fileEnd+p)
  | p => p

namespace SimpleFileMapper
variable {α : Type} (s : SimpleFileMapper α)

@[simp] theorem file_ofFile (l : List α) (n : Nat) : (ofFile l n).file = l := rfl
@[simp] theorem buffer_ofFile (l : List α) (n : Nat) : (ofFile l n).buffer = [] := rfl
@[simp] theorem writePos_ofFile (l : List α) (n : Nat) : (ofFile l n).writePos = l.length := rfl
@[simp] theorem contents_ofFile (l : List α) (n : Nat) : (ofFile l n).contents = l := by
  simp [contents]

theorem getDataAtOffset_ofFile_contents (o : Nat) :
    (ofFile s.contents).getDataAtOffset o = (s.getDataAtOffset o).map (Ptr.remap s.file.length) := by
  unfold getDataAtOffset
  simp only [ofFile, contents, List.length_append, List.length_nil, Nat.add_zero]
  split_ifs <;> first | rfl | (simp only [Except.map, Ptr.remap, Except.ok.injEq, Ptr.mapped.injEq]; omega)

theorem read_remap {p : Ptr} {len : Nat} {b : List α} (h : s.read p len = some b) :
    (ofFile s.contents).read (p.remap s.file.length) len = some b := by
  cases p with
  | null => cases h
  | mapped pos =>
    simp only [read] at h
    split_ifs at h with hle
    cases h
    simp only [Ptr.remap, read, file_ofFile, contents, List.length_append]
    rw [if_pos (by omega), List.drop_append_of_le_length (by omega),
      List.take_append_of_le_length (by simp; omega)]
  | buffered pos =>
    simp only [read] at h
    split_ifs at h with hle
    cases h
    simp only [Ptr.remap, read, file_ofFile, contents, List.length_append]
    rw [if_pos (by omega), List.drop_append_eq_append_drop, List.drop_eq_nil_of_le (by omega),
      List.nil_append, Nat.add_sub_cancel_left]
theorem getDataAtOffset_ofFile_file (o : Nat) :
    (ofFile s.file).getDataAtOffset o = s.getDataAtOffset o ∨
      ((ofFile s.file).getDataAtOffset o = .error .offsetInRange ∧
        ∃ p, s.getDataAtOffset o = .ok (.buffered p)) := by
  unfold getDataAtOffset
  simp only [file_ofFile, buffer_ofFile, List.length_nil, Nat.add_zero]
  by_cases hinv : o = InvalidFileIndex
  · simp [hinv]
  by_cases hf : o < s.file.length
  · simp [hinv, hf, show o < s.file.length+s.buffer.length by omega]
  by_cases hb : o < s.file.length+s.buffer.length
  · simp [hinv, hf, hb]
  · simp [hinv, hf, hb]

theorem write_unflushed {v : List α} (h : s.writePos = s.size)
    (hb : s.buffer.length+v.length ≤ s.maxBufferSize) :
    ∃ full s', s.write v = .ok (full, s') ∧ s'.file = s.file := by
  have hw := s.write_of_writePos_eq_size v h
  rw [if_neg (show ¬ s.maxBufferSize < s.buffer.length+v.length by omega)] at hw
  exact ⟨_, _, hw, rfl⟩
end SimpleFileMapper

theorem mapM_map_except {α β γ ε : Type} (f : α → Except ε β) (g : β → γ) (l : List α) :
    l.mapM (fun x => (f x).map g) = (l.mapM f).map (List.map g) := by
  induction l with
  | nil => rfl
  | cons x l ih =>
    simp only [List.mapM_cons, ih]
    cases f x <;> cases l.mapM f <;> rfl

namespace FixedSizeFileMapper
variable {α : Type} {S : Nat} (m : FixedSizeFileMapper α S)

/-- Modelled from the spec: `fileSize()` is `dataFile.fileSize() / sizeof(T)`, and
`SimpleFileMapper` does not declare `fileSize()`; it is the cells on disk, the buffer left out. -/
def fileSize : Nat := m.dataFile.file.length/S

theorem write_at_record_ok_iff (hS : 0 < S) (i : Nat) {t : List α} (ht : t.length = S) :
    (∃ x, (m.dataFile.seek (i*S)).write t = .ok x) ↔ i < m.fileSize ∨ i = m.size := by
  obtain ⟨F, hF⟩ := m.file_dvd
  obtain ⟨B, hB⟩ := m.buffer_dvd
  have hfs : m.fileSize = F := by rw [fileSize, hF, Nat.mul_div_cancel_left _ hS]
  have hs : m.size = F+B := by
    rw [size, SimpleFileMapper.size, hF, hB, ← Nat.mul_add, Nat.mul_div_cancel_left _ hS]
  rw [SimpleFileMapper.write_ok_iff, hfs, hs]
  simp only [SimpleFileMapper.seek_writePos, SimpleFileMapper.size, SimpleFileMapper.seek_file,
    SimpleFileMapper.seek_buffer, hF, hB, ht, ← Nat.mul_add, Nat.mul_comm i]
  constructor
  · rintro (h | ⟨h, -, -⟩)
    · exact .inr (Nat.eq_of_mul_eq_mul_left hS h)
    · exact .inl (Nat.lt_of_mul_lt_mul_left h)
  · rintro (h | rfl)
    · exact .inr ⟨Nat.mul_lt_mul_of_pos_left h hS, hS,
        .inl (by rw [← Nat.mul_succ]; exact Nat.mul_le_mul_left _ h)⟩
    · exact .inl rfl

/-- The record store as an array with in-place update. From any state, `seek(i)` then
`write(t)` completes exactly when record `i` is in the mapping or `i = size()`; record `i` then
reads `t` through `operator[]`, and every other record reads as before. -/
theorem seek_write_deref (hS : 0 < S) {i : Nat} {t : List α} (ht : t.length = S)
    (hsz : max m.size (i+1)*S ≤ InvalidFileIndex) :
    ((∃ r, (m.seek i).write t ht = .ok r) ↔ i < m.fileSize ∨ i = m.size) ∧
      ∀ full m', (m.seek i).write t ht = .ok (full, m') →
        m'.deref i = .ok t ∧ ∀ j < m.size, j ≠ i → m'.deref j = m.deref j := by
  have hiff : (∃ r, (m.seek i).write t ht = .ok r) ↔
      ∃ x, (m.dataFile.seek (i*S)).write t = .ok x :=
    ⟨fun ⟨_, h⟩ => ⟨_, dataFile_write h⟩, fun ⟨_, h⟩ =>
      let ⟨_, h', _⟩ := @write_of_dataFile _ _ (m.seek i) _ ht _ _ h; ⟨_, h'⟩⟩
  refine ⟨hiff.trans (m.write_at_record_ok_iff hS i ht), fun full m' h => ?_⟩
  have hd := dataFile_write h
  have hsize : m.size*S = m.dataFile.size :=
    Nat.div_mul_cancel (Nat.dvd_add m.file_dvd m.buffer_dvd)
  -- the cursor is inside the contents or at their end
  have hpos : i*S ≤ m.dataFile.contents.length := by
    rw [SimpleFileMapper.length_contents]
    rcases (m.write_at_record_ok_iff hS i ht).mp (hiff.mp ⟨_, h⟩) with hi | rfl
    · have := Nat.mul_le_mul_right S (Nat.le_of_lt hi)
      rw [fileSize, Nat.div_mul_cancel m.file_dvd] at this
      exact this.trans (Nat.le_add_right _ _)
    · exact hsize.le
  obtain ⟨hc, -⟩ := SimpleFileMapper.write_spec _ _ hd
  simp only [dataFile_seek, SimpleFileMapper.seek_writePos] at hc
  rw [show (m.dataFile.seek (i*S)).contents = m.dataFile.contents from rfl] at hc
  have hlen : m'.dataFile.size = max (m.size*S) ((i+1)*S) := by
    rw [← SimpleFileMapper.length_contents, hc, length_overwrite_of_le hpos, ht,
      SimpleFileMapper.length_contents, hsize, Nat.succ_mul]
  have hsz' : m'.dataFile.size ≤ InvalidFileIndex := by rwa [hlen, Nat.mul_max_mul_right]
  have hmsz : m.dataFile.size ≤ InvalidFileIndex := by
    rw [← hsize]; exact (Nat.mul_le_mul_right S (Nat.le_max_left _ _)).trans hsz
  have hlt : ∀ j, j < m.size ∨ j = i → j < m'.size := fun j hj => by
    rw [size, Nat.lt_iff_add_one_le, Nat.le_div_iff_mul_le hS, hlen]
    rcases hj with hj | rfl
    · exact (Nat.mul_le_mul_right S hj).trans (Nat.le_max_left _ _)
    · exact Nat.le_max_right _ _
  refine ⟨?_, fun j hj hji => ?_⟩
  · have hback := take_drop_overwrite (b := t) hpos
    rw [ht] at hback
    rw [m'.deref_of_lt hS (hlt i (.inr rfl)) hsz', record, hc, hback]
  · rw [m'.deref_of_lt hS (hlt j (.inl hj)) hsz', m.deref_of_lt hS hj hmsz, record, record, hc,
      take_drop_overwrite_of_disjoint hpos]
    rw [ht, ← Nat.succ_mul, ← Nat.succ_mul]
    rcases Nat.lt_or_gt_of_ne hji with h | h
    · exact .inl (Nat.mul_le_mul_right S h)
    · exact .inr (Nat.mul_le_mul_right S h)

def twoRecords : FixedSizeFileMapper Nat 2 := ofFile [1, 2, 3, 4] (by decide)

theorem seek_write_deref_twoRecords :
    0 < 2 ∧ [5, 6].length = 2 ∧ max twoRecords.size (0+1)*2 ≤ InvalidFileIndex ∧
      ((∃ r, (twoRecords.seek 0).write [5, 6] rfl = .ok r) ↔
          0 < twoRecords.fileSize ∨ 0 = twoRecords.size) ∧
        ∀ full m', (twoRecords.seek 0).write [5, 6] rfl = .ok (full, m') →
          m'.deref 0 = .ok [5, 6] ∧ ∀ j < twoRecords.size, j ≠ 0 → m'.deref j = twoRecords.deref j :=
  ⟨by decide, rfl, by decide, @seek_write_deref _ _ twoRecords (by decide) 0 [5, 6] rfl (by decide)⟩

end FixedSizeFileMapper

namespace IndexedFileMapper
variable {T : Streams} (m : IndexedFileMapper T)

def fileSize : Nat := m.indexFile.fileSize

/-- The store a process opens over the files on disk, which are the two mappings. A read-mode
store reads through the same `getOffset`, `getDataAtIndex` and `getData`, over mappers without
a buffer. -/
def openFiles : IndexedFileMapper T :=
  ofFiles m.dataFile.file m.indexFile.dataFile.file m.indexFile.file_dvd

/-- The destructors, then the constructor: `~SimpleFileMapper` calls `clearBuffer()` on both
files, and the next process opens what they left. -/
def reopen : IndexedFileMapper T := m.clearBuffer.openFiles

@[simp] theorem openFiles_dataFile : m.openFiles.dataFile = .ofFile m.dataFile.file := rfl
@[simp] theorem openFiles_indexFile :
    m.openFiles.indexFile.dataFile = .ofFile m.indexFile.dataFile.file (50000000/8) := rfl
theorem reopen_dataFile : m.reopen.dataFile = .ofFile m.dataFile.contents := rfl
theorem reopen_indexFile :
    m.reopen.indexFile.dataFile = .ofFile m.indexFile.dataFile.contents (50000000/8) := rfl

@[simp] theorem view_reopen : m.reopen.view = m.view := by
  simp [view, reopen_dataFile, reopen_indexFile]

@[simp] theorem size_reopen : m.reopen.size = m.size := by
  simp only [size_eq_count, view_reopen]

theorem atEnd_reopen : m.reopen.AtEnd := by
  simp [AtEnd, reopen_dataFile, reopen_indexFile]

/-- `m'` shows every entry as `m` does: the same `size()` and offsets, the pointers of
`getDataAtIndex` and `getData` moved into the mapping by `remap`, and through them the
cells `m`'s pointers read. -/
structure ReadsAs (m' m : IndexedFileMapper T) : Prop where
  size : m'.size = m.size
  getOffsets : ∀ k, m'.getOffsets k = m.getOffsets k
  getDataAtIndex : ∀ i k,
    m'.getDataAtIndex i k = (m.getDataAtIndex i k).map (Ptr.remap m.dataFile.file.length)
  getData : ∀ k, m'.getData k = (m.getData k).map (List.map (Ptr.remap m.dataFile.file.length))
  read : ∀ p len b, m.dataFile.read p len = some b →
    m'.dataFile.read (p.remap m.dataFile.file.length) len = some b

section reopen
variable (hsz : m.indexFile.dataFile.size ≤ InvalidFileIndex)
include hsz

theorem getOffsets_reopen (k : Nat) : m.reopen.getOffsets k = m.getOffsets k := by
  by_cases hk : k < m.size
  · rw [getOffsets_eq m hk hsz, getOffsets_eq m.reopen (by rwa [size_reopen])
      (by simpa [reopen_indexFile] using hsz)]
    simp [FixedSizeFileMapper.record, reopen_indexFile]
  · have hk' : ¬ k < m.reopen.size := by rwa [size_reopen]
    simp only [size] at hk hk'
    simp only [getOffsets, FixedSizeFileMapper.deref, FixedSizeFileMapper.getDataAtIndex, if_neg hk,
      if_neg hk']
    rfl

theorem getOffset_reopen (i k : Nat) : m.reopen.getOffset i k = m.getOffset i k := by
  have hd : m.reopen.dataFile.size = m.dataFile.size := by simp [reopen_dataFile]
  have ho : m.reopen.indexFile.deref k = m.indexFile.deref k := m.getOffsets_reopen hsz k
  simp only [getOffset, ho, hd]

theorem getDataAtIndex_reopen (i k : Nat) :
    m.reopen.getDataAtIndex i k = (m.getDataAtIndex i k).map (Ptr.remap m.dataFile.file.length) := by
  unfold getDataAtIndex
  rw [size_reopen, m.getOffset_reopen hsz]
  split_ifs
  · cases m.getOffset i k with
    | error e => rfl
    | ok o => exact m.dataFile.getDataAtOffset_ofFile_contents o
  · rfl

theorem getData_reopen (k : Nat) :
    m.reopen.getData k = (m.getData k).map (List.map (Ptr.remap m.dataFile.file.length)) := by
  unfold getData
  rw [size_reopen]
  split_ifs
  · rw [m.getDataAtIndex_reopen hsz]
    cases m.getDataAtIndex 0 k <;> rfl
  · rw [m.getOffsets_reopen hsz]
    cases m.getOffsets k with
    | error e => rfl
    | ok offsets =>
      show offsets.mapM (SimpleFileMapper.ofFile m.dataFile.contents).getDataAtOffset = _
      rw [funext m.dataFile.getDataAtOffset_ofFile_contents]
      exact mapM_map_except _ _ offsets
  · rfl

/-- Closing and reopening loses nothing: the store the next process opens over the files the
destructors leave, which is also what a reader opened after `clearBuffer()` sees, shows every
entry as the writer did. -/
theorem reopen_readsAs : m.reopen.ReadsAs m :=
  ⟨m.size_reopen, m.getOffsets_reopen hsz, m.getDataAtIndex_reopen hsz, m.getData_reopen hsz,
    fun _ _ _ h => m.dataFile.read_remap h⟩

end reopen

theorem reopen_readsAs_written :
    ∃ m, (empty : IndexedFileMapper byteThenWord).run [.write (.value ⟨[7], rfl⟩)] = .ok m ∧
      m.indexFile.dataFile.size ≤ InvalidFileIndex ∧ m.reopen.ReadsAs m :=
  ⟨_, rfl, by decide, reopen_readsAs _ (by decide)⟩

/-! Restarts. -/

theorem Entries.run_append (E : List (Entry T)) (ops ops' : List (Op T)) :
    Entries.run E (ops ++ ops') = Entries.run E ops >>= fun E' => Entries.run E' ops' := by
  induction ops generalizing E with
  | nil => rfl
  | cons op ops ih =>
    simp only [List.cons_append, Entries.run]
    cases Entries.step E op with
    | none => rfl
    | some E₁ => exact ih E₁

theorem View.within_of_fits {v : View} {ops : List (Op T)} (h : v.fits ops = true) : v.Within := by
  cases ops with
  | nil => exact View.fits_nil.mp h
  | cons op ops => exact (View.fits_cons.mp h).1

theorem View.fits_left {w : View} {a b : List (Op T)} (hf : w.fits (a ++ b) = true) :
    w.fits a = true := by
  induction a generalizing w with
  | nil => exact View.fits_nil.mpr (View.within_of_fits hf)
  | cons op a ih =>
    obtain ⟨hw, hrest⟩ := View.fits_cons.mp hf
    exact View.fits_cons.mpr ⟨hw, fun v' h' => ih (hrest v' h')⟩

theorem View.fits_right {w w' : View} {a b : List (Op T)} (h : w.run a = some w')
    (hf : w.fits (a ++ b) = true) : w'.fits b = true := by
  induction a generalizing w with
  | nil => cases h; exact hf
  | cons op a ih =>
    simp only [View.run, Option.bind_eq_bind, Option.bind_eq_some] at h
    obtain ⟨w₁, h₁, h₂⟩ := h
    exact ih h₂ ((View.fits_cons.mp hf).2 w₁ h₁)

theorem regions_reopen {E : List (Entry T)} (hh : m.view.Holds E) : Regions m.reopen E := by
  intro k e he i hi p hp
  have hs := hh.slot k e he i hi
  rw [hp] at hs
  rw [view_reopen]
  exact .inl hs.2.1

/-- A writer's life over several processes: each runs its calls and exits, and the next
reopens the files the destructors left. -/
def runSessions : IndexedFileMapper T → List (List (Op T)) → Except Fault (IndexedFileMapper T)
  | m, [] => .ok m
  | m, ops :: sessions => m.run ops >>= fun m' => runSessions m'.reopen sessions

theorem runSessions_holds {m : IndexedFileMapper T} {E E' : List (Entry T)}
    {sessions : List (List (Op T))} (hm : m.AtEnd) (hh : m.view.Holds E) (hr : Regions m E)
    (hE : Entries.run E sessions.flatten = some E') (hf : m.view.fits sessions.flatten = true) :
    ∃ m', m.runSessions sessions = .ok m' ∧ m.view.run sessions.flatten = some m'.view ∧
      m'.view.Holds E' ∧ Regions m' E' := by
  induction sessions generalizing m E with
  | nil => cases hE; exact ⟨m, rfl, rfl, hh, hr⟩
  | cons ops sessions ih =>
    rw [List.flatten_cons] at hE hf
    rw [Entries.run_append, Option.bind_eq_bind, Option.bind_eq_some] at hE
    obtain ⟨E₁, hE₁, hE'⟩ := hE
    obtain ⟨m₁, hm₁, hv₁, -, hh₁, hr₁⟩ := refines_run hm hh hr hE₁ (View.fits_left hf)
    have hf' : m₁.reopen.view.fits sessions.flatten = true := by
      rw [view_reopen]; exact View.fits_right hv₁ hf
    obtain ⟨m', hm', hv', hh', hr'⟩ :=
      ih m₁.atEnd_reopen (by rwa [view_reopen]) (m₁.regions_reopen hh₁) hE' hf'
    refine ⟨m', by simp [runSessions, hm₁, Bind.bind, Except.bind, hm'], ?_, hh', hr'⟩
    rw [List.flatten_cons, View.run_append, hv₁, ← view_reopen m₁]
    exact hv'

theorem holds_empty : (empty : IndexedFileMapper T).view.Holds ([] : List (Entry T)) :=
  ⟨wf_empty, by simp [View.count, empty_view], by simp, by simp⟩

/-- Restarts lose nothing: a writer whose calls are spread over several processes, each
reopening the files the previous one's destructors left, ends in a store that refines the
entries of all the calls run in one go, with every slot reading back as in one process. -/
theorem runSessions_refines_entries {sessions : List (List (Op T))} {E : List (Entry T)}
    (hE : Entries.run [] sessions.flatten = some E)
    (hfit : View.fits ⟨[], []⟩ sessions.flatten = true) :
    ∃ m, (empty : IndexedFileMapper T).runSessions sessions = .ok m ∧ m.size = E.length ∧
      ∀ k e, E[k]? = some e →
      ∃ offsets, m.getOffsets k = .ok offsets ∧ offsets.getD 0 0 ≠ InvalidFileIndex ∧
        ∀ i < T.indexCount, (offsets.getD i 0 ≠ InvalidFileIndex → offsets.getD i 0 < m.dataFile.size) ∧
          ∃ p, m.getDataAtIndex i k = .ok p ∧ (∃ ps, m.getData k = .ok ps ∧ ps[i]? = some p) ∧
            (p = .null ↔ e.slot i = none) ∧ ∀ b, e.slot i = some b → m.dataFile.read p b.length = some b := by
  obtain ⟨m, hm, hv, hh, hr⟩ := runSessions_holds empty_atEnd holds_empty (by simp [Regions]) hE hfit
  obtain ⟨hwi, hwd⟩ := View.within_run hv hfit
  rw [length_index] at hwi
  rw [length_data] at hwd
  exact ⟨m, hm, by rw [size_eq_count, hh.count], fun k e he => observe_entry hh hr hwi hwd he⟩

theorem runSessions_refines_two_sessions :
    ∃ m, (empty : IndexedFileMapper byteThenWord).runSessions
        [[.write (.value ⟨[7], rfl⟩), .writeAt 1 0 (.value ⟨List.replicate 8 0, rfl⟩)],
          [.write (.value ⟨[9], rfl⟩), .truncate 1]] = .ok m ∧ m.size = 1 ∧
      ∀ k (e : Entry byteThenWord), [⟨[7], [some (List.replicate 8 0)], rfl, false⟩][k]? = some e →
      ∃ offsets, m.getOffsets k = .ok offsets ∧ offsets.getD 0 0 ≠ InvalidFileIndex ∧
        ∀ i < byteThenWord.indexCount,
          (offsets.getD i 0 ≠ InvalidFileIndex → offsets.getD i 0 < m.dataFile.size) ∧
          ∃ p, m.getDataAtIndex i k = .ok p ∧ (∃ ps, m.getData k = .ok ps ∧ ps[i]? = some p) ∧
            (p = .null ↔ e.slot i = none) ∧ ∀ b, e.slot i = some b → m.dataFile.read p b.length = some b :=
  runSessions_refines_entries (E := [⟨[7], [some (List.replicate 8 0)], rfl, false⟩]) rfl rfl

/-! The files on disk between flushes. -/

theorem size_openFiles : m.openFiles.size = m.fileSize := by
  simp [size, FixedSizeFileMapper.size, fileSize, FixedSizeFileMapper.fileSize]

theorem openFiles_getDataAtIndex_past {i k : Nat} (hi : i < T.indexCount) (hk : k < m.fileSize)
    (hsz : m.indexFile.dataFile.file.length ≤ InvalidFileIndex)
    (hpast : m.dataFile.file.length ≤ m.openFiles.view.cell T k i)
    (hinv : m.openFiles.view.cell T k i ≠ InvalidFileIndex) :
    m.openFiles.getDataAtIndex i k = .error .offsetInRange :=
  getDataAtIndex_of_not_offsetOk _ (by rwa [size_openFiles]) (by simpa using hsz) hi
    (by simp only [OffsetOk, openFiles_dataFile, SimpleFileMapper.size_ofFile]; omega)

theorem cell_openFiles {i k : Nat} (hi : i < T.indexCount) (hk : k < m.fileSize) :
    m.openFiles.view.cell T k i = m.view.cell T k i := by
  have hlt : k*T.indexCount+i < m.indexFile.dataFile.file.length := by
    have := mul_add_lt_mul hi hk
    rwa [fileSize, FixedSizeFileMapper.fileSize, Nat.div_mul_cancel m.indexFile.file_dvd] at this
  simp only [View.cell, view, openFiles_indexFile, SimpleFileMapper.contents_ofFile]
  rw [SimpleFileMapper.contents, List.getD_append _ _ _ _ hlt]

/-- A reader never sees a wrong pointer. Over the files on disk at any point, whatever the calls
before, each stream of an entry on disk reads as the writer reads it, unless its payload is
still in the writer's data buffer: then the reader's `getOffset` assertion fails. A crash loses
what the buffers hold and nothing else. -/
theorem openFiles_getDataAtIndex_agrees {i k : Nat} (hi : i < T.indexCount) (hk : k < m.fileSize)
    (hsz : m.indexFile.dataFile.size ≤ InvalidFileIndex) :
    m.openFiles.getDataAtIndex i k = m.getDataAtIndex i k ∨
      (m.openFiles.getDataAtIndex i k = .error .offsetInRange ∧
        ∃ p, m.getDataAtIndex i k = .ok (.buffered p)) := by
  have hks : k < m.size := Nat.lt_of_lt_of_le hk
    (Nat.div_le_div_right (by simp [SimpleFileMapper.size]))
  have hsz' : m.openFiles.indexFile.dataFile.size ≤ InvalidFileIndex := by
    simp only [openFiles_indexFile, SimpleFileMapper.size_ofFile]
    exact le_trans (by simp [SimpleFileMapper.size]) hsz
  rw [m.getDataAtIndex_eq_getDataAtOffset hks hsz hi,
    m.openFiles.getDataAtIndex_eq_getDataAtOffset (by rwa [size_openFiles]) hsz' hi,
    cell_openFiles m hi hk, openFiles_dataFile]
  exact m.dataFile.getDataAtOffset_ofFile_file _

def indexFlushed : IndexedFileMapper byteThenWord :=
  ⟨{ file := [], buffer := [7], writePos := 1 }, .ofFile [0, InvalidFileIndex] (by decide)⟩

theorem openFiles_getDataAtIndex_agrees_indexFlushed :
    0 < byteThenWord.indexCount ∧ 0 < indexFlushed.fileSize ∧
      indexFlushed.indexFile.dataFile.size ≤ InvalidFileIndex ∧
      (indexFlushed.openFiles.getDataAtIndex 0 0 = indexFlushed.getDataAtIndex 0 0 ∨
        (indexFlushed.openFiles.getDataAtIndex 0 0 = .error .offsetInRange ∧
          ∃ p, indexFlushed.getDataAtIndex 0 0 = .ok (.buffered p))) :=
  ⟨by decide, by decide, by decide,
    openFiles_getDataAtIndex_agrees indexFlushed (by decide) (by decide) (by decide)⟩

/-! What a write needs, from any state: a rewrite in place (`seek(k, o)`, then a primary
write) and an attachment. -/

theorem write_ok_iff_files (t : Payload T.head) :
    (∃ m', m.write t = .ok m') ↔
      (∃ r, m.indexFile.dataFile.write
          (m.dataFile.getWriteOffset :: List.replicate T.tail.length InvalidFileIndex) = .ok r) ∧
        ∃ r, m.dataFile.write t.bytes = .ok r := by
  simp only [write, writeNewImp, Nat.mod_eq_zero_of_dvd t.align_dvd, if_true]
  constructor
  · rintro ⟨m', h⟩
    obtain ⟨⟨_, idx⟩, hi, h⟩ := except_bind_eq_ok.mp h
    obtain ⟨⟨_, d⟩, hd, -⟩ := except_bind_eq_ok.mp h
    exact ⟨⟨_, FixedSizeFileMapper.dataFile_write hi⟩, ⟨_, hd⟩⟩
  · rintro ⟨⟨⟨_, i⟩, hi⟩, ⟨⟨_, d⟩, hd⟩⟩
    obtain ⟨idx, hidx, -⟩ := @FixedSizeFileMapper.write_of_dataFile _ _ m.indexFile _
      (by simp [Streams.indexCount]) _ _ hi
    exact ⟨⟨d, idx⟩, by simp only [hidx, hd, Bind.bind, Except.bind]⟩

/-- Exactly the rewrites that complete, from any state: `seek(k, o)` then a primary write goes
through when entry `k`'s record is in the index mapping or `k` is the end, and the payload
starts at the end of the data or inside the data mapping, where it must fit unless the data
buffer is empty. An entry whose record is still buffered cannot be rewritten until a flush. -/
theorem fill_ok_iff (k o : Nat) (t : Payload T.head) :
    (∃ m', (m.seek k o).write t = .ok m') ↔ (k < m.fileSize ∨ k = m.size) ∧
      (o = m.dataFile.size ∨ (o < m.dataFile.file.length ∧
        (o+t.bytes.length ≤ m.dataFile.file.length ∨ m.dataFile.buffer = []))) := by
  rw [write_ok_iff_files]
  simp only [seek, FixedSizeFileMapper.dataFile_seek]
  rw [m.indexFile.write_at_record_ok_iff T.indexCount_pos k (by simp [Streams.indexCount]),
    SimpleFileMapper.write_ok_iff]
  simp only [SimpleFileMapper.seek_writePos, SimpleFileMapper.size, SimpleFileMapper.seek_file,
    SimpleFileMapper.seek_buffer, t.length_pos, true_and, fileSize, size]

/-- Exactly the attachments that complete, from any state: `write<i>(k, t)` goes through when
`0 < i < N` and entry `k` exists, and the payload starts at the end of the data or inside the
data mapping, where it must fit unless the data buffer is empty. Unlike a rewrite it does not
depend on where entry `k`'s record is: the store through `*indexFile[k]` reaches the mapping
and the buffer alike. -/
theorem writeAt_ok_iff {i k : Nat} (t : Payload (T.nthElement i))
    (hsz : m.indexFile.dataFile.size ≤ InvalidFileIndex) :
    (∃ m', m.writeAt i k t = .ok m') ↔ (0 < i ∧ i < T.indexCount) ∧ k < m.size ∧
      (m.dataFile.writePos = m.dataFile.size ∨ (m.dataFile.writePos < m.dataFile.file.length ∧
        (m.dataFile.writePos+t.bytes.length ≤ m.dataFile.file.length ∨ m.dataFile.buffer = []))) := by
  simp only [writeAt, writeUpdateImp]
  by_cases hi : 0 < i ∧ i < T.indexCount
  · rw [if_pos hi, if_pos (Nat.mod_eq_zero_of_dvd t.align_dvd)]
    by_cases hk : k < m.size
    · obtain ⟨p, idx, hp, hs, -⟩ :=
        m.indexFile.store_at T.indexCount_pos hk hi.2 hsz m.dataFile.getWriteOffset
      have hw := SimpleFileMapper.write_ok_iff m.dataFile t.bytes
      simp only [t.length_pos, true_and] at hw
      simp only [hp, hs, Bind.bind, Except.bind, hi, hk, true_and, ← hw]
      cases m.dataFile.write t.bytes with
      | error e => exact ⟨fun ⟨_, h⟩ => (nomatch h), fun ⟨_, h⟩ => (nomatch h)⟩
      | ok r => exact ⟨fun _ => ⟨_, rfl⟩, fun _ => ⟨_, rfl⟩⟩
    · have hnot : m.indexFile.getDataAtIndex k = .error .indexInRange := if_neg hk
      simp only [hnot, hk, Bind.bind, Except.bind, false_and, and_false, iff_false]
      exact fun ⟨_, h⟩ => nomatch h
  · simp only [if_neg hi, hi, false_and, iff_false]
    exact fun ⟨_, h⟩ => nomatch h

theorem writeAt_ok_iff_indexFlushed :
    indexFlushed.indexFile.dataFile.size ≤ InvalidFileIndex ∧
      ((∃ m', indexFlushed.writeAt 1 0 (.value ⟨List.replicate 8 0, rfl⟩) = .ok m') ↔
        (0 < 1 ∧ 1 < byteThenWord.indexCount) ∧ 0 < indexFlushed.size ∧
          (indexFlushed.dataFile.writePos = indexFlushed.dataFile.size ∨
            (indexFlushed.dataFile.writePos < indexFlushed.dataFile.file.length ∧
              (indexFlushed.dataFile.writePos+8 ≤ indexFlushed.dataFile.file.length ∨
                indexFlushed.dataFile.buffer = [])))) :=
  ⟨by decide, @writeAt_ok_iff _ indexFlushed 1 0 (.value ⟨List.replicate 8 0, rfl⟩) (by decide)⟩

/-- A primary write whose index record flushes the index file while its payload stays in the
data file's buffer leaves on disk an entry whose payload is not there: `fileSize()` counts
it, and a store opened over the files fails `getOffset`'s assertion on it, the record's
offset lying past the data on disk. -/
theorem write_exposes_entry {t : Payload T.head} (hm : m.AtEnd)
    (hidx : m.indexFile.dataFile.maxBufferSize < m.indexFile.dataFile.buffer.length+T.indexCount)
    (hdat : m.dataFile.buffer.length+t.bytes.length ≤ m.dataFile.maxBufferSize)
    (hsz : (m.size+1)*T.indexCount ≤ InvalidFileIndex) (hd : m.dataFile.size < InvalidFileIndex) :
    ∃ m', m.write t = .ok m' ∧ m'.fileSize = m.size+1 ∧
      m'.openFiles.getDataAtIndex 0 m.size = .error .offsetInRange := by
  obtain ⟨hdE, hiE⟩ := hm
  set r := m.dataFile.getWriteOffset :: List.replicate T.tail.length InvalidFileIndex with hr_def
  have hr : r.length = T.indexCount := by simp [hr_def, Streams.indexCount]
  have hwi := m.indexFile.dataFile.write_of_writePos_eq_size r hiE
  rw [hr, if_pos hidx] at hwi
  obtain ⟨m₁, hm₁, hd₁⟩ := @FixedSizeFileMapper.write_of_dataFile _ _ m.indexFile _ hr _ _ hwi
  obtain ⟨full, d, hwd, hdf⟩ := m.dataFile.write_unflushed hdE hdat
  have hc : m.indexFile.dataFile.contents.length = m.size*T.indexCount := by
    rw [SimpleFileMapper.length_contents, size_index_eq]
  have hfile : m₁.dataFile.file = m.indexFile.dataFile.contents ++ r := by
    rw [hd₁]; simp [SimpleFileMapper.contents]
  have hlen : m₁.dataFile.file.length = (m.size+1)*T.indexCount := by
    rw [hfile, List.length_append, hc, hr, Nat.succ_mul]
  have hfs : m₁.fileSize = m.size+1 := by
    rw [FixedSizeFileMapper.fileSize, hlen, Nat.mul_div_cancel _ T.indexCount_pos]
  -- the new record, on disk: its stream-0 offset is the end of the logical data
  have hcell : (⟨d, m₁⟩ : IndexedFileMapper T).openFiles.view.cell T m.size 0 = m.dataFile.size := by
    simp only [View.cell, view, openFiles_indexFile, SimpleFileMapper.contents_ofFile, hfile,
      List.getD_eq_getElem?_getD, List.getElem?_append_right (show m.indexFile.dataFile.contents.length ≤
        m.size*T.indexCount+0 by omega), hc]
    simp [hr_def, SimpleFileMapper.getWriteOffset, hdE]
  refine ⟨⟨d, m₁⟩, ?_, hfs, openFiles_getDataAtIndex_past _ T.indexCount_pos
    (by rw [show (⟨d, m₁⟩ : IndexedFileMapper T).fileSize = m₁.fileSize from rfl, hfs]; omega)
    (by rw [hlen]; exact hsz) ?_ ?_⟩
  · simp only [write, writeNewImp, Nat.mod_eq_zero_of_dvd t.align_dvd, if_true]
    rw [hm₁]
    simp [Bind.bind, Except.bind, hwd]
  · rw [hcell, hdf]; exact Nat.le_add_right _ _
  · rw [hcell]; exact Nat.ne_of_lt hd

def flushingIndex : IndexedFileMapper byteThenWord :=
  ⟨.ofFile [], ⟨{ file := [], buffer := [], writePos := 0, maxBufferSize := 0 }, Nat.dvd_zero _,
    Nat.dvd_zero _, Nat.dvd_zero _⟩⟩

theorem write_exposes_first_entry :
    flushingIndex.AtEnd ∧
      flushingIndex.indexFile.dataFile.maxBufferSize <
        flushingIndex.indexFile.dataFile.buffer.length+byteThenWord.indexCount ∧
      flushingIndex.dataFile.buffer.length+[7].length ≤ flushingIndex.dataFile.maxBufferSize ∧
      (flushingIndex.size+1)*byteThenWord.indexCount ≤ InvalidFileIndex ∧
      flushingIndex.dataFile.size < InvalidFileIndex ∧
      ∃ m', flushingIndex.write (.value ⟨[7], rfl⟩) = .ok m' ∧ m'.fileSize = flushingIndex.size+1 ∧
        m'.openFiles.getDataAtIndex 0 flushingIndex.size = .error .offsetInRange :=
  ⟨⟨rfl, rfl⟩, by decide, by decide, by decide, by decide,
    write_exposes_entry flushingIndex ⟨rfl, rfl⟩ (by decide) (by decide) (by decide) (by decide)⟩

/-- An attachment to an entry whose record is in the index file's mapping writes the new
offset into the mapping, which is the file on disk, and the payload into the data file's
buffer: until the data file is flushed, a store opened over the files fails `getOffset`'s
assertion on that stream of the entry. -/
theorem writeAt_exposes_offset {i k : Nat} {t : Payload (T.nthElement i)} (hm : m.AtEnd)
    (hi : 0 < i) (hiN : i < T.indexCount) (hk : k < m.fileSize)
    (hdat : m.dataFile.buffer.length+t.bytes.length ≤ m.dataFile.maxBufferSize)
    (hsz : m.indexFile.dataFile.size ≤ InvalidFileIndex) (hd : m.dataFile.size < InvalidFileIndex) :
    ∃ m', m.writeAt i k t = .ok m' ∧ m'.openFiles.getDataAtIndex i k = .error .offsetInRange := by
  have hkF : k*T.indexCount+T.indexCount ≤ m.indexFile.dataFile.file.length := by
    have := (Nat.le_div_iff_mul_le T.indexCount_pos).mp (show k+1 ≤ m.fileSize from hk)
    rwa [Nat.add_mul, Nat.one_mul] at this
  have hks : k < m.size :=
    Nat.lt_of_lt_of_le hk (Nat.div_le_div_right (Nat.le_add_right _ _))
  obtain ⟨p, m₁, hp, hs, hc₁, -, hf₁, -⟩ :=
    m.indexFile.store_at T.indexCount_pos hks hiN hsz m.dataFile.getWriteOffset
  obtain ⟨full, d, hwd, hdf⟩ := m.dataFile.write_unflushed hm.1 hdat
  -- the cell written through `*indexFile[k]` lies in the mapping
  have hcell : (⟨d, m₁⟩ : IndexedFileMapper T).openFiles.view.cell T k i = m.dataFile.size := by
    have hc : k*T.indexCount+i < m₁.dataFile.file.length := by omega
    have hc' : k*T.indexCount+i < m.indexFile.dataFile.contents.length := by
      rw [SimpleFileMapper.length_contents, SimpleFileMapper.size]; omega
    have h1 : m₁.dataFile.file[k*T.indexCount+i]? = m₁.dataFile.contents[k*T.indexCount+i]? := by
      rw [SimpleFileMapper.contents, List.getElem?_append_left hc]
    simp only [View.cell, view, openFiles_indexFile, SimpleFileMapper.contents_ofFile,
      List.getD_eq_getElem?_getD, h1, hc₁, List.getElem?_set_self hc']
    simp [SimpleFileMapper.getWriteOffset, hm.1]
  refine ⟨⟨d, m₁⟩, ?_, openFiles_getDataAtIndex_past _ hiN
    (by rwa [show (⟨d, m₁⟩ : IndexedFileMapper T).fileSize = m₁.fileSize from rfl,
      FixedSizeFileMapper.fileSize, hf₁])
    (by rw [hf₁]; simp only [SimpleFileMapper.size] at hsz; omega) ?_ ?_⟩
  · simp only [writeAt, writeUpdateImp, if_pos (And.intro hi hiN), Nat.mod_eq_zero_of_dvd t.align_dvd,
      if_true]
    simp [Bind.bind, Except.bind, hp, hs, hwd]
  · rw [hcell, hdf]; exact Nat.le_add_right _ _
  · rw [hcell]; exact Nat.ne_of_lt hd

def oneEntry : IndexedFileMapper byteThenWord := ofFiles [7] [0, InvalidFileIndex] (by decide)

theorem writeAt_exposes_offset_one_entry :
    oneEntry.AtEnd ∧ 0 < 1 ∧ 1 < byteThenWord.indexCount ∧ 0 < oneEntry.fileSize ∧
      oneEntry.dataFile.buffer.length+8 ≤ oneEntry.dataFile.maxBufferSize ∧
      oneEntry.indexFile.dataFile.size ≤ InvalidFileIndex ∧ oneEntry.dataFile.size < InvalidFileIndex ∧
      ∃ m', oneEntry.writeAt 1 0 (.value ⟨List.replicate 8 0, rfl⟩) = .ok m' ∧
        m'.openFiles.getDataAtIndex 1 0 = .error .offsetInRange :=
  ⟨⟨rfl, rfl⟩, by decide, by decide, by decide, by decide, by decide, by decide,
    writeAt_exposes_offset oneEntry ⟨rfl, rfl⟩ (by decide) (by decide) (by decide) (by decide) (by decide)
      (by decide)⟩

end IndexedFileMapper
end BlockSci
