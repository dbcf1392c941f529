import BlockSci.IndexedFileMapper

/-! What a crash can lose: along every run, each file holds at most `maxBufferSize` cells
outside its mapping. -/
namespace BlockSci

theorem except_bind_eq_ok {ε α β : Type} {x : Except ε α} {f : α → Except ε β} {b : β} :
    x >>= f = .ok b ↔ ∃ a, x = .ok a ∧ f a = .ok b := by
  cases x <;> simp [Bind.bind, Except.bind]

namespace SimpleFileMapper
variable {α : Type} {s s' : SimpleFileMapper α}

/-- At most `maxBufferSize` cells of the logical contents are not in the file. -/
def BufferWithin (s : SimpleFileMapper α) : Prop := s.buffer.length ≤ s.maxBufferSize

theorem memcpy_buffer {p : Ptr} {v : List α} {c : Int} (h : s.memcpy p v c = .ok s') :
    s'.buffer.length = s.buffer.length ∧ s'.maxBufferSize = s.maxBufferSize := by
  refine ⟨(memcpy_lengths h).2.1, ?_⟩
  unfold memcpy at h
  split at h
  · cases h
  · split at h <;> (try split at h) <;> simp only [Except.ok.injEq, reduceCtorEq] at h <;> subst h <;> rfl

theorem writeRegion_buffer {v rest : List α} (h : s.writeRegion v = .ok (s', rest)) :
    s'.buffer.length = s.buffer.length ∧ s'.maxBufferSize = s.maxBufferSize := by
  simp only [writeRegion] at h
  cases hm : s.memcpy s.getWritePos v (min (v.length : Int) s.writeSpace) with
  | error e => rw [hm] at h; cases h
  | ok s₀ =>
    rw [hm] at h
    cases h
    obtain ⟨hb, hmax⟩ := memcpy_buffer hm
    exact ⟨hb, hmax⟩

theorem writeEnd_bufferWithin {fileEnd : Nat} {v : List α} {full : Bool}
    (h : s.writeEnd fileEnd v = .ok (full, s')) : s'.BufferWithin := by
  unfold writeEnd at h
  split_ifs at h
  simp only [Except.ok.injEq, Prod.mk.injEq] at h
  obtain ⟨-, rfl⟩ := h
  split_ifs with hfull
  · exact Nat.zero_le _
  · exact Nat.le_of_not_lt (by simpa using hfull)

theorem writeBuffered_bufferWithin {fileEnd : Nat} {v : List α} {full : Bool} (hs : s.BufferWithin)
    (h : s.writeBuffered fileEnd v = .ok (full, s')) : s'.BufferWithin := by
  unfold writeBuffered at h
  split_ifs at h
  · obtain ⟨⟨s₁, rest⟩, h₁, h⟩ := except_bind_eq_ok.mp h
    obtain ⟨hb, hmax⟩ := writeRegion_buffer h₁
    dsimp only at h
    split_ifs at h
    · cases h
      exact (congrArg₂ (· ≤ ·) hb hmax).mpr hs
    · exact writeEnd_bufferWithin h
  · exact writeEnd_bufferWithin h

theorem write_bufferWithin {v : List α} {full : Bool} (hs : s.BufferWithin)
    (h : s.write v = .ok (full, s')) : s'.BufferWithin := by
  simp only [write] at h
  split_ifs at h
  · obtain ⟨⟨s₁, rest⟩, h₁, h⟩ := except_bind_eq_ok.mp h
    obtain ⟨hb, hmax⟩ := writeRegion_buffer h₁
    have hs₁ : s₁.BufferWithin := (congrArg₂ (· ≤ ·) hb hmax).mpr hs
    dsimp only at h
    split_ifs at h
    · cases h
      exact hs₁
    · exact writeBuffered_bufferWithin hs₁ h
  · exact writeBuffered_bufferWithin hs h

theorem step_bufferWithin [Zero α] {op : Op α} (hs : s.BufferWithin) (h : s.step op = .ok s') :
    s'.BufferWithin := by
  cases op with
  | write v =>
    simp only [step] at h
    cases hw : s.write v with
    | error e => rw [hw] at h; cases h
    | ok r =>
      rw [hw] at h
      cases h
      exact write_bufferWithin hs hw
  | seek | seekEnd => cases h; exact hs
  | clearBuffer | reload | truncate => cases h; exact Nat.zero_le _

/-- Along every run, at most `maxBufferSize` cells are not in the file: a crash at any point
between calls loses no more. -/
theorem run_bufferWithin [Zero α] {ops : List (Op α)} (hs : s.BufferWithin) (h : s.run ops = .ok s') :
    s'.BufferWithin := by
  induction ops generalizing s with
  | nil => cases h; exact hs
  | cons op ops ih =>
    obtain ⟨s₁, h₁, h⟩ := except_bind_eq_ok.mp h
    exact ih (step_bufferWithin hs h₁) h

theorem run_bufferWithin_flushing :
    ({ ofFile [1, 2] with maxBufferSize := 2 } : SimpleFileMapper Nat).BufferWithin ∧
      ∃ s', ({ ofFile [1, 2] with maxBufferSize := 2 } : SimpleFileMapper Nat).run
        [.write [3, 4], .write [5], .seek 0, .write [9]] = .ok s' ∧ s'.BufferWithin :=
  by
    obtain ⟨s', h⟩ : ∃ s', ({ ofFile [1, 2] with maxBufferSize := 2 } : SimpleFileMapper Nat).run
        [.write [3, 4], .write [5], .seek 0, .write [9]] = .ok s' := ⟨_, rfl⟩
    exact ⟨Nat.zero_le _, s', h, run_bufferWithin (Nat.zero_le _) h⟩

end SimpleFileMapper

namespace FixedSizeFileMapper
variable {α : Type} {S : Nat} {m m' : FixedSizeFileMapper α S}

theorem store_dataFile {p : Ptr} {x : α} (h : m.store p x = .ok m') :
    m.dataFile.memcpy p [x] 1 = .ok m'.dataFile := by
  unfold store at h
  split at h
  · rename_i heq
    cases h
    exact heq
  · cases h

end FixedSizeFileMapper

namespace IndexedFileMapper
variable {T : Streams} {m m' : IndexedFileMapper T}

def BuffersWithin (m : IndexedFileMapper T) : Prop :=
  m.dataFile.BufferWithin ∧ m.indexFile.dataFile.BufferWithin

theorem write_buffersWithin {t : Payload T.head} (hm : m.BuffersWithin) (h : m.write t = .ok m') :
    m'.BuffersWithin := by
  simp only [write, writeNewImp] at h
  split_ifs at h
  obtain ⟨⟨_, idx⟩, hi, h⟩ := except_bind_eq_ok.mp h
  obtain ⟨⟨_, d⟩, hd, h⟩ := except_bind_eq_ok.mp h
  cases h
  exact ⟨SimpleFileMapper.write_bufferWithin hm.1 hd,
    SimpleFileMapper.write_bufferWithin hm.2 (FixedSizeFileMapper.dataFile_write hi)⟩

theorem writeAt_buffersWithin {i k : Nat} {t : Payload (T.nthElement i)} (hm : m.BuffersWithin)
    (h : m.writeAt i k t = .ok m') : m'.BuffersWithin := by
  simp only [writeAt, writeUpdateImp] at h
  split_ifs at h
  obtain ⟨p, -, h⟩ := except_bind_eq_ok.mp h
  obtain ⟨idx, hi, h⟩ := except_bind_eq_ok.mp h
  obtain ⟨⟨_, d⟩, hd, h⟩ := except_bind_eq_ok.mp h
  cases h
  obtain ⟨hb, hmax⟩ := SimpleFileMapper.memcpy_buffer (FixedSizeFileMapper.store_dataFile hi)
  exact ⟨SimpleFileMapper.write_bufferWithin hm.1 hd, (congrArg₂ (· ≤ ·) hb hmax).mpr hm.2⟩

theorem step_buffersWithin {op : Op T} (hm : m.BuffersWithin) (h : m.step op = .ok m') :
    m'.BuffersWithin := by
  cases op with
  | write t => exact write_buffersWithin hm h
  | writeAt i k t => exact writeAt_buffersWithin hm h
  | truncate k =>
    simp only [step, truncate] at h
    split_ifs at h
    · obtain ⟨_, -, h⟩ := except_bind_eq_ok.mp h
      cases h
      exact ⟨Nat.zero_le _, Nat.zero_le _⟩
    · cases h
      exact hm
  | seekEnd | seek => cases h; exact hm
  | clearBuffer | reload | grow => cases h; exact ⟨Nat.zero_le _, Nat.zero_le _⟩

/-- Along every run of an indexed store, whatever its calls, each of its two files holds at
most `maxBufferSize` cells outside its mapping: a crash between calls loses no more of
either file. -/
theorem run_buffersWithin {ops : List (Op T)} (hm : m.BuffersWithin) (h : m.run ops = .ok m') :
    m'.BuffersWithin := by
  induction ops generalizing m with
  | nil => cases h; exact hm
  | cons op ops ih =>
    obtain ⟨m₁, h₁, h⟩ := except_bind_eq_ok.mp h
    exact ih (step_buffersWithin hm h₁) h

theorem run_buffersWithin_grown :
    (empty : IndexedFileMapper byteThenWord).BuffersWithin ∧
      ∃ m', (empty : IndexedFileMapper byteThenWord).run
        [.write (.value ⟨[7], rfl⟩), .grow 1 1, .seek 1 1, .write (.value ⟨[8], rfl⟩)] = .ok m' ∧
        m'.BuffersWithin :=
  by
    obtain ⟨m', h⟩ : ∃ m', (empty : IndexedFileMapper byteThenWord).run
        [.write (.value ⟨[7], rfl⟩), .grow 1 1, .seek 1 1, .write (.value ⟨[8], rfl⟩)] = .ok m' :=
      ⟨_, rfl⟩
    exact ⟨⟨Nat.zero_le _, Nat.zero_le _⟩, m', h, run_buffersWithin ⟨Nat.zero_le _, Nat.zero_le _⟩ h⟩

end IndexedFileMapper
end BlockSci
