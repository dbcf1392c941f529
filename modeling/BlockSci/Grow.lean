import BlockSci.LogicalView

/-! `grow` reserves zeroed slots that `seek(k, o)` and a primary write fill out of order;
disjoint fills commute, and filling every slot returns the store to the appending regime. -/
namespace BlockSci
variable {α : Type}

theorem foldl_overwrite {l : List α} {ws : List (Nat × List α)}
    (hin : ∀ w ∈ ws, w.1+w.2.length ≤ l.length)
    (hdisj : ws.Pairwise fun w w' => w.1+w.2.length ≤ w'.1 ∨ w'.1+w'.2.length ≤ w.1) :
    (ws.foldl (fun l w => overwrite l w.1 w.2) l).length = l.length ∧
    (∀ w ∈ ws, ∀ j < w.2.length, (ws.foldl (fun l w => overwrite l w.1 w.2) l)[w.1+j]? = w.2[j]?) ∧
    ∀ i, (∀ w ∈ ws, ¬(w.1 ≤ i ∧ i < w.1+w.2.length)) →
      (ws.foldl (fun l w => overwrite l w.1 w.2) l)[i]? = l[i]? := by
  induction ws generalizing l with
  | nil => simp
  | cons w ws ih =>
    simp only [List.foldl_cons]
    have hw := hin w (.head _)
    have hlen := length_overwrite hw
    have hsep := (List.pairwise_cons.mp hdisj).1
    obtain ⟨hl, hset, hkeep⟩ := ih (l := overwrite l w.1 w.2)
      (fun w' h => hlen ▸ hin w' (.tail _ h)) (List.pairwise_cons.mp hdisj).2
    refine ⟨hl.trans hlen, fun w' hw' j hj => ?_, fun i hi => ?_⟩
    · rcases List.mem_cons.mp hw' with rfl | hw'
      · rw [hkeep _ fun w'' h'' hc => by have := hsep w'' h''; omega, getElem?_overwrite hw,
          if_pos (by omega), Nat.add_sub_cancel_left]
      · exact hset w' hw' j hj
    · rw [hkeep i fun w' h' => hi w' (.tail _ h'), getElem?_overwrite hw, if_neg (hi w (.head _))]

namespace IndexedFileMapper
variable {T : Streams}

/-- A fill of a reserved slot: `seek(slot, offset)`, then the primary write of `value`. -/
structure Fill (T : Streams) where
  slot : Nat
  offset : Nat
  value : Payload T.head

namespace Fill

def record (f : Fill T) : Nat × List Nat :=
  (f.slot*T.indexCount, f.offset :: List.replicate T.tail.length InvalidFileIndex)

def payload (f : Fill T) : Nat × List UInt8 := (f.offset, f.value.bytes)

def Disjoint (f g : Fill T) : Prop :=
  f.slot ≠ g.slot ∧ (f.offset+f.value.bytes.length ≤ g.offset ∨ g.offset+g.value.bytes.length ≤ f.offset)

theorem Disjoint.symm {f g : Fill T} (h : f.Disjoint g) : g.Disjoint f := ⟨h.1.symm, h.2.symm⟩

theorem length_record (f : Fill T) : f.record.2.length = T.indexCount := by
  simp [record, Streams.indexCount]

theorem Disjoint.record {f g : Fill T} (h : f.Disjoint g) :
    f.record.1+f.record.2.length ≤ g.record.1 ∨ g.record.1+g.record.2.length ≤ f.record.1 := by
  rw [f.length_record, g.length_record]
  simp only [Fill.record]
  rcases Nat.lt_or_gt_of_ne h.1 with hs | hs
  · exact .inl (by rw [← Nat.succ_mul]; exact Nat.mul_le_mul_right _ hs)
  · exact .inr (by rw [← Nat.succ_mul]; exact Nat.mul_le_mul_right _ hs)

end Fill

def fillOps : List (Fill T) → List (Op T)
  | [] => []
  | f :: fills => .seek f.slot f.offset :: .write f.value :: fillOps fills

/-- Both files flushed at fixed lengths of `L` records and `D` bytes: what `grow` leaves and
every fill keeps. -/
structure Grown (m : IndexedFileMapper T) (L D : Nat) : Prop where
  dataBuffer : m.dataFile.buffer = []
  indexBuffer : m.indexFile.dataFile.buffer = []
  dataLength : m.dataFile.file.length = D
  indexLength : m.indexFile.dataFile.file.length = L*T.indexCount

namespace Grown
variable {m : IndexedFileMapper T} {L D : Nat}

theorem dataFile_size (hg : m.Grown L D) : m.dataFile.size = D := by
  rw [SimpleFileMapper.size, hg.dataLength, hg.dataBuffer]
  rfl

theorem indexFile_size (hg : m.Grown L D) : m.indexFile.dataFile.size = L*T.indexCount := by
  rw [SimpleFileMapper.size, hg.indexLength, hg.indexBuffer]
  rfl

theorem size_eq (hg : m.Grown L D) : m.size = L :=
  Nat.eq_of_mul_eq_mul_right T.indexCount_pos (m.size_index_eq.symm.trans hg.indexFile_size)

end Grown

theorem grow_grown (m : IndexedFileMapper T) (slots d : Nat) :
    (m.grow slots d).Grown (m.size+slots) (m.dataFile.size+d) := by
  have hi := SimpleFileMapper.size_truncate m.indexFile.dataFile ((m.size+slots)*T.indexCount)
  have hd := SimpleFileMapper.size_truncate m.dataFile (m.dataFile.size+d)
  simp only [SimpleFileMapper.size, SimpleFileMapper.truncate_buffer, List.length_nil,
    Nat.add_zero] at hi hd
  exact ⟨rfl, rfl, hd, hi⟩

theorem view_grow (m : IndexedFileMapper T) (slots d : Nat) :
    (m.grow slots d).view = ⟨m.view.index ++ List.replicate (slots*T.indexCount) 0,
      m.view.data ++ List.replicate d 0⟩ := by
  have hsz := m.size_index_eq
  have hi := m.indexFile.dataFile.contents_truncate_of_le ((m.size+slots)*T.indexCount)
    (by rw [hsz, Nat.add_mul]; exact Nat.le_add_right _ _)
  have hd := m.dataFile.contents_truncate_of_le (m.dataFile.size+d) (Nat.le_add_right _ _)
  rw [show (m.size+slots)*T.indexCount-m.indexFile.dataFile.size = slots*T.indexCount by
    rw [hsz, Nat.add_mul, Nat.add_sub_cancel_left]] at hi
  rw [Nat.add_sub_cancel_left] at hd
  simp only [view, grow, FixedSizeFileMapper.dataFile_truncate]
  rw [← hi, ← hd]; rfl

theorem fill_step {m : IndexedFileMapper T} {L D : Nat} (hg : m.Grown L D) {f : Fill T}
    (hk : f.slot < L) (ho : f.offset+f.value.bytes.length ≤ D) :
    ∃ m', m.run [.seek f.slot f.offset, .write f.value] = .ok m' ∧ m'.Grown L D ∧
      m'.view = ⟨overwrite m.view.index f.record.1 f.record.2,
        overwrite m.view.data f.offset f.value.bytes⟩ := by
  have hpos := f.value.length_pos
  have hkN : f.slot*T.indexCount+T.indexCount ≤ L*T.indexCount := by
    rw [← Nat.succ_mul]; exact Nat.mul_le_mul_right _ hk
  obtain ⟨di, hiw, hif, hib⟩ : ∃ di, (m.indexFile.seek f.slot).dataFile.write
      (f.offset :: List.replicate T.tail.length InvalidFileIndex) = .ok (false, di) ∧
      di.file = overwrite m.indexFile.dataFile.file f.record.1 f.record.2 ∧
      di.buffer = m.indexFile.dataFile.buffer :=
    ⟨_, (m.indexFile.seek f.slot).dataFile.write_of_fits f.record.2
      (by simp only [FixedSizeFileMapper.dataFile_seek, SimpleFileMapper.seek_writePos,
        SimpleFileMapper.seek_file, hg.indexLength]; have := T.indexCount_pos; omega)
      (by rw [f.length_record]; exact T.indexCount_pos)
      (by simp only [FixedSizeFileMapper.dataFile_seek, SimpleFileMapper.seek_writePos,
        SimpleFileMapper.seek_file, hg.indexLength, f.length_record]; exact hkN), rfl, rfl⟩
  obtain ⟨m₁, hm₁, rfl⟩ := @FixedSizeFileMapper.write_of_dataFile _ _ (m.indexFile.seek f.slot)
    (f.offset :: List.replicate T.tail.length InvalidFileIndex) f.length_record _ _ hiw
  obtain ⟨dd, hdw, hdf, hdb⟩ : ∃ dd, (m.dataFile.seek f.offset).write f.value.bytes = .ok (false, dd) ∧
      dd.file = overwrite m.dataFile.file f.offset f.value.bytes ∧ dd.buffer = m.dataFile.buffer :=
    ⟨_, (m.dataFile.seek f.offset).write_of_fits f.value.bytes
      (by simp only [SimpleFileMapper.seek_writePos, SimpleFileMapper.seek_file, hg.dataLength]; omega)
      hpos (by simp only [SimpleFileMapper.seek_writePos, SimpleFileMapper.seek_file, hg.dataLength]; omega),
      rfl, rfl⟩
  refine ⟨⟨dd, m₁⟩, ?_, ⟨hdb.trans hg.dataBuffer, hib.trans hg.indexBuffer, ?_, ?_⟩, ?_⟩
  · have hw : (m.seek f.slot f.offset).write f.value = .ok ⟨dd, m₁⟩ := by
      simp only [write, writeNewImp, Nat.mod_eq_zero_of_dvd f.value.align_dvd, if_true, seek,
        SimpleFileMapper.getWriteOffset, SimpleFileMapper.seek_writePos]
      rw [hm₁]
      simp [Bind.bind, Except.bind, hdw]
    simp [run, step, hw, Bind.bind, Except.bind]
  · rw [hdf, length_overwrite (by rw [hg.dataLength]; exact ho), hg.dataLength]
  · rw [hif, length_overwrite (by rw [hg.indexLength, f.length_record]; exact hkN), hg.indexLength]
  · simp [view, SimpleFileMapper.contents, hdf, hif, hdb, hib, hg.dataBuffer, hg.indexBuffer]

theorem run_fills {m : IndexedFileMapper T} {L D : Nat} (hg : m.Grown L D) {fills : List (Fill T)}
    (hk : ∀ f ∈ fills, f.slot < L) (ho : ∀ f ∈ fills, f.offset+f.value.bytes.length ≤ D) :
    ∃ m', m.run (fillOps fills) = .ok m' ∧ m'.Grown L D ∧
      m'.view = ⟨(fills.map Fill.record).foldl (fun l w => overwrite l w.1 w.2) m.view.index,
        (fills.map Fill.payload).foldl (fun l w => overwrite l w.1 w.2) m.view.data⟩ := by
  induction fills generalizing m with
  | nil => exact ⟨m, rfl, hg, rfl⟩
  | cons f fills ih =>
    obtain ⟨m₁, h₁, hg₁, hv₁⟩ := fill_step hg (hk f (.head _)) (ho f (.head _))
    obtain ⟨m', h', hg', hv'⟩ := ih hg₁ (fun f h => hk f (.tail _ h)) (fun f h => ho f (.tail _ h))
    refine ⟨m', ?_, hg', ?_⟩
    · rw [show fillOps (f :: fills) = [.seek f.slot f.offset, .write f.value] ++ fillOps fills from rfl,
        run_append, h₁]
      exact h'
    · rw [hv', hv₁]; rfl

variable {m : IndexedFileMapper T} {slots d : Nat} {fills : List (Fill T)}

theorem records_inside (hslot : ∀ f ∈ fills, m.size ≤ f.slot ∧ f.slot < m.size+slots) :
    ∀ w ∈ fills.map Fill.record,
      w.1+w.2.length ≤ (m.view.index ++ List.replicate (slots*T.indexCount) 0).length := by
  intro w hw
  obtain ⟨f, hf, rfl⟩ := List.mem_map.mp hw
  rw [f.length_record, List.length_append, List.length_replicate, length_index, size_index_eq,
    ← Nat.add_mul]
  show f.slot*T.indexCount+T.indexCount ≤ _
  rw [← Nat.succ_mul]
  exact Nat.mul_le_mul_right _ (hslot f hf).2

theorem records_disjoint (hdisj : fills.Pairwise Fill.Disjoint) :
    (fills.map Fill.record).Pairwise fun w w' => w.1+w.2.length ≤ w'.1 ∨ w'.1+w'.2.length ≤ w.1 :=
  List.pairwise_map.mpr (hdisj.imp Fill.Disjoint.record)

theorem run_grow_fills (hslot : ∀ f ∈ fills, m.size ≤ f.slot ∧ f.slot < m.size+slots)
    (hrange : ∀ f ∈ fills, m.dataFile.size ≤ f.offset ∧ f.offset+f.value.bytes.length ≤ m.dataFile.size+d) :
    ∃ m', m.run (.grow slots d :: fillOps fills) = .ok m' ∧
      m'.Grown (m.size+slots) (m.dataFile.size+d) ∧
      m'.view = ⟨(fills.map Fill.record).foldl (fun l w => overwrite l w.1 w.2)
          (m.view.index ++ List.replicate (slots*T.indexCount) 0),
        (fills.map Fill.payload).foldl (fun l w => overwrite l w.1 w.2)
          (m.view.data ++ List.replicate d 0)⟩ := by
  obtain ⟨m', h', hg', hv'⟩ := run_fills (grow_grown m slots d)
    (fun f hf => (hslot f hf).2) (fun f hf => (hrange f hf).2)
  rw [view_grow] at hv'
  exact ⟨m', h', hg', hv'⟩


/-- A slot that `grow` reserved and no write filled holds a record of zero cells, so its
stream-0 offset is `0`, not `InvalidFileIndex`. Truncating the store back to it cuts the data
file at `0`: the entries before it keep their records, and none of their offsets other than
`InvalidFileIndex` points into the data any more. -/
theorem truncate_unfilled_slot (m : IndexedFileMapper T) {slots d k : Nat} (hk : m.size ≤ k)
    (hks : k < m.size+slots) (hsz : (m.size+slots)*T.indexCount ≤ InvalidFileIndex) :
    ∃ m', (m.grow slots d).truncate k = .ok m' ∧ m'.size = k ∧ m'.dataFile.size = 0 ∧
      ∀ j < k, ∀ i < T.indexCount,
        m'.getDataAtIndex i j = .ok .null ∨ m'.getDataAtIndex i j = .error .offsetInRange := by
  have hg := m.grow_grown slots d
  have hkg : k < (m.grow slots d).size := by rw [hg.size_eq]; exact hks
  have hgsz : (m.grow slots d).indexFile.dataFile.size ≤ InvalidFileIndex := by
    rw [hg.indexFile_size]; exact hsz
  have hcell : (m.grow slots d).view.cell T k 0 = 0 := by
    have hle : m.view.index.length ≤ k*T.indexCount+0 := by
      rw [length_index, size_index_eq]; exact Nat.mul_le_mul_right _ hk
    rw [view_grow, View.cell, List.getD_eq_getElem?_getD, List.getElem?_append_right hle,
      List.getElem?_replicate]
    split_ifs <;> rfl
  obtain ⟨M, hM⟩ : ∃ M : IndexedFileMapper T,
      M = ⟨(m.grow slots d).dataFile.truncate 0, (m.grow slots d).indexFile.truncate k⟩ := ⟨_, rfl⟩
  have hMs : M.size = k := by
    simp only [hM, size, FixedSizeFileMapper.size_eq, FixedSizeFileMapper.dataFile_truncate,
      SimpleFileMapper.size_truncate, Nat.mul_div_cancel _ T.indexCount_pos]
  have hMd : M.dataFile.size = 0 := by rw [hM]; exact SimpleFileMapper.size_truncate _ _
  have hMsz : M.indexFile.dataFile.size ≤ InvalidFileIndex := by
    rw [hM, FixedSizeFileMapper.dataFile_truncate, SimpleFileMapper.size_truncate]
    exact Nat.le_trans (Nat.mul_le_mul_right _ hks.le) hsz
  refine ⟨M, by simp only [hM, truncate, if_pos hkg, getOffsets_eq _ hkg hgsz, Bind.bind, Except.bind,
      getD_record _ T.indexCount_pos, hcell], hMs, hMd, fun j hj i hi => ?_⟩
  have hjM : j < M.size := hMs ▸ hj
  by_cases ho : M.OffsetOk (M.view.cell T j i)
  · -- the only offset that passes the check of an empty data file is `InvalidFileIndex`
    have hinv : M.view.cell T j i = InvalidFileIndex :=
      ho.resolve_left (by rw [hMd]; exact Nat.not_lt_zero _)
    exact .inl (by rw [M.getDataAtIndex_eq hjM hMsz hi ho, hinv]; exact M.dataFile.getDataAtOffset_invalid)
  · exact .inr (M.getDataAtIndex_of_not_offsetOk hjM hMsz hi ho)

theorem truncate_unfilled_slot_second :
    (ofFiles [7] [0, InvalidFileIndex] (by decide) : IndexedFileMapper byteThenWord).size ≤ 2 ∧
      2 < (ofFiles [7] [0, InvalidFileIndex] (by decide) : IndexedFileMapper byteThenWord).size+2 ∧
      ((ofFiles [7] [0, InvalidFileIndex] (by decide) : IndexedFileMapper byteThenWord).size+2)*
        byteThenWord.indexCount ≤ InvalidFileIndex ∧
      ∃ m', ((ofFiles [7] [0, InvalidFileIndex] (by decide) : IndexedFileMapper byteThenWord).grow 2 1).truncate 2 =
          .ok m' ∧ m'.size = 2 ∧ m'.dataFile.size = 0 ∧ ∀ j < 2, ∀ i < byteThenWord.indexCount,
        m'.getDataAtIndex i j = .ok .null ∨ m'.getDataAtIndex i j = .error .offsetInRange :=
  ⟨by decide, by decide, by decide, truncate_unfilled_slot _ (by decide) (by decide) (by decide)⟩

section refill
variable {m₁ : IndexedFileMapper T}
  (hslot : ∀ f ∈ fills, m.size ≤ f.slot ∧ f.slot < m.size+slots)
  (hdisj : fills.Pairwise Fill.Disjoint)
  (hv : m₁.view.index = (fills.map Fill.record).foldl (fun l w => overwrite l w.1 w.2)
    (m.view.index ++ List.replicate (slots*T.indexCount) 0))
include hslot hdisj hv

theorem cell_fills_of_lt {j i : Nat} (hj : j < m.size) (hi : i < T.indexCount) :
    m₁.view.cell T j i = m.view.cell T j i := by
  obtain ⟨-, -, hkeep⟩ := foldl_overwrite (records_inside hslot) (records_disjoint hdisj)
  have hlt := mul_add_lt_mul hi hj
  have hlt' : j*T.indexCount+i < m.view.index.length := by rwa [length_index, size_index_eq]
  simp only [View.cell, List.getD_eq_getElem?_getD, hv]
  rw [hkeep _ fun w hw hc => ?_, List.getElem?_append_left hlt']
  obtain ⟨f, hf, rfl⟩ := List.mem_map.mp hw
  have := Nat.mul_le_mul_right T.indexCount (hslot f hf).1
  simp only [Fill.record] at hc
  omega

theorem cell_fills_slot {f : Fill T} (hf : f ∈ fills) : m₁.view.cell T f.slot 0 = f.offset := by
  obtain ⟨-, hset, -⟩ := foldl_overwrite (records_inside hslot) (records_disjoint hdisj)
  have h := hset f.record (List.mem_map_of_mem _ hf) 0 (by rw [f.length_record]; exact T.indexCount_pos)
  simp only [Fill.record, List.getElem?_cons_zero] at h
  simp only [View.cell, List.getD_eq_getElem?_getD, hv, h, Option.getD_some]

end refill

/-- The fill protocol returns the store to the appending regime. From a well-formed store,
`grow(slots, d)`, a fill of every reserved slot in any order, with offsets that grow with the
slots and disjoint payloads inside the reserved data, and `seekEnd()` leave a well-formed store
with both cursors at the end and `slots` more entries; every later run the logical model
accepts then completes and does what the model says. -/
theorem grow_fill_seekEnd_wf (hw : m.view.Wf T)
    (hslot : ∀ f ∈ fills, m.size ≤ f.slot ∧ f.slot < m.size+slots)
    (hcover : ∀ k < slots, ∃ f ∈ fills, f.slot = m.size+k)
    (hmono : ∀ f ∈ fills, ∀ g ∈ fills, f.slot ≤ g.slot → f.offset ≤ g.offset)
    (hrange : ∀ f ∈ fills, m.dataFile.size ≤ f.offset ∧ f.offset+f.value.bytes.length ≤ m.dataFile.size+d)
    (hdisj : fills.Pairwise Fill.Disjoint) :
    ∃ m', m.run (.grow slots d :: fillOps fills ++ [.seekEnd]) = .ok m' ∧ m'.size = m.size+slots ∧
      m'.AtEnd ∧ m'.view.Wf T ∧
      ∀ ops v', m'.view.run ops = some v' → m'.view.fits ops = true →
        ∃ m'', m'.run ops = .ok m'' ∧ m''.view = v' := by
  obtain ⟨m₁, h₁, hg₁, hv₁⟩ := run_grow_fills hslot hrange
  have hold := fun j (hj : j < m.size) => cell_fills_of_lt hslot hdisj (congrArg View.index hv₁) hj
    T.indexCount_pos
  have hnew := fun f (hf : f ∈ fills) => cell_fills_slot hslot hdisj (congrArg View.index hv₁) hf
  have hcount : m₁.view.count T = m.size+slots := by rw [← size_eq_count, hg₁.size_eq]
  have hdata : m₁.view.data.length = m.dataFile.size+d := by rw [length_data, hg₁.dataFile_size]
  have hold_le : ∀ j < m.size, m.view.cell T j 0 ≤ m.dataFile.size := fun j hj => by
    have := hw.le j (by rwa [← size_eq_count])
    rwa [length_data] at this
  -- each stream-0 cell of the grown store: an old one, or the offset of the slot's fill
  have hcell : ∀ k < m.size+slots, m.size ≤ k → ∃ f ∈ fills, f.slot = k ∧ m₁.view.cell T k 0 = f.offset :=
    fun k hk hks => by
      obtain ⟨f, hf, hfk⟩ := hcover (k-m.size) (by omega)
      rw [Nat.add_sub_cancel' hks] at hfk
      exact ⟨f, hf, hfk, hfk ▸ hnew f hf⟩
  have hWf : m₁.view.Wf T := by
    refine ⟨?_, fun j k hjk hk => ?_, fun k hk => ?_⟩ <;> try rw [hcount] at hk
    · rw [length_index, hg₁.indexFile_size]; exact Nat.dvd_mul_left _ _
    · by_cases hks : k < m.size
      · rw [hold j (by omega), hold k hks]
        exact hw.mono j k hjk (by rwa [← size_eq_count])
      obtain ⟨g, hg, hgs, hgk⟩ := hcell k hk (by omega)
      rw [hgk]
      by_cases hjs : j < m.size
      · rw [hold j hjs]; exact (hold_le j hjs).trans (hrange g hg).1
      · obtain ⟨f, hf, hfs, hfk⟩ := hcell j (by omega) (by omega)
        rw [hfk]
        exact hmono f hf g hg (by rw [hfs, hgs]; exact hjk)
    · rw [hdata]
      by_cases hks : k < m.size
      · rw [hold k hks]; have := hold_le k hks; omega
      · obtain ⟨g, hg, -, hgk⟩ := hcell k hk (by omega)
        rw [hgk]; have := (hrange g hg).2; omega
  refine ⟨m₁.seekEnd, by rw [run_append, h₁]; rfl, hg₁.size_eq, ⟨rfl, rfl⟩, hWf,
    fun ops v' h hf => ?_⟩
  obtain ⟨m'', h'', hv'', -⟩ := run_atEnd (m := m₁.seekEnd) ⟨rfl, rfl⟩ hWf h hf
  exact ⟨m'', h'', hv''⟩

def fills₁ : List (Fill byteThenWord) := [⟨1, 1, .value ⟨[8], rfl⟩⟩, ⟨0, 0, .value ⟨[7], rfl⟩⟩]

theorem grow_fill_seekEnd_wf_reversed :
    (empty : IndexedFileMapper byteThenWord).view.Wf byteThenWord ∧
      (∀ f ∈ fills₁, (empty : IndexedFileMapper byteThenWord).size ≤ f.slot ∧
        f.slot < (empty : IndexedFileMapper byteThenWord).size+2) ∧
      (∀ k < 2, ∃ f ∈ fills₁, f.slot = (empty : IndexedFileMapper byteThenWord).size+k) ∧
      (∀ f ∈ fills₁, ∀ g ∈ fills₁, f.slot ≤ g.slot → f.offset ≤ g.offset) ∧
      (∀ f ∈ fills₁, (empty : IndexedFileMapper byteThenWord).dataFile.size ≤ f.offset ∧
        f.offset+f.value.bytes.length ≤ (empty : IndexedFileMapper byteThenWord).dataFile.size+2) ∧
      fills₁.Pairwise Fill.Disjoint ∧
      ∃ m', (empty : IndexedFileMapper byteThenWord).run (.grow 2 2 :: fillOps fills₁ ++ [.seekEnd]) =
          .ok m' ∧ m'.size = (empty : IndexedFileMapper byteThenWord).size+2 ∧ m'.AtEnd ∧
        m'.view.Wf byteThenWord ∧
        ∀ ops v', m'.view.run ops = some v' → m'.view.fits ops = true →
          ∃ m'', m'.run ops = .ok m'' ∧ m''.view = v' :=
  have hdisj : fills₁.Pairwise Fill.Disjoint := by simp [fills₁, Fill.Disjoint, Payload.bytes]
  ⟨wf_empty, by decide, by decide, by decide, by decide, hdisj,
    grow_fill_seekEnd_wf wf_empty (by decide) (by decide) (by decide) (by decide) hdisj⟩

end IndexedFileMapper
end BlockSci
