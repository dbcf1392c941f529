import BlockSci.Cursor
import BlockSci.Durability
import BlockSci.LogicalView

/-! An `IndexedFileMapper<write>` refines two growable arrays with a cursor each, the index
cells and the data bytes; without `seek` and `truncate` the machine only appends and fills,
and the code completes every such run the machine completes. -/
namespace BlockSci

namespace FixedSizeFileMapper
variable {α : Type} {S : Nat} {m m' : FixedSizeFileMapper α S}

theorem store_getDataAtIndex {index i : Nat} {p : Ptr} {x : α}
    (hp : m.getDataAtIndex index = .ok p) (hs : m.store (p.add i) x = .ok m') :
    m'.dataFile.contents = m.dataFile.contents.set (index*S+i) x ∧
      m'.dataFile.writePos = m.dataFile.writePos := by
  have hd := store_dataFile hs
  unfold getDataAtIndex at hp
  split_ifs at hp
  unfold SimpleFileMapper.getDataAtOffset at hp
  split_ifs at hp with h₁ h₂ h₃ <;> cases hp <;>
    simp only [Ptr.add, SimpleFileMapper.memcpy, if_neg (show ¬ (1 : Int) < 0 by decide)] at hd
  · cases hd
  · split_ifs at hd with h₄
    rw [← Except.ok.inj hd]
    refine ⟨?_, rfl⟩
    simp only [getPos, Int.toNat_one] at h₄ ⊢
    have hlt : index*S+i < m.dataFile.file.length := by omega
    simp only [SimpleFileMapper.contents, show [x].take 1 = [x] from rfl, overwrite_singleton x hlt,
      List.set_append_left _ _ hlt]
  · split_ifs at hd with h₄
    rw [← Except.ok.inj hd]
    refine ⟨?_, rfl⟩
    simp only [getPos, Int.toNat_one] at h₃ h₄ ⊢
    simp only [SimpleFileMapper.contents, List.set_append,
      if_neg (show ¬ index*S+i < m.dataFile.file.length by omega)]
    rw [show [x].take 1 = [x] from rfl, overwrite_singleton x (by omega)]
    congr 2
    omega

theorem deref_ok {index : Nat} {x : List α} (h : m.deref index = .ok x) : x = m.record index := by
  unfold deref at h
  obtain ⟨p, hp, h⟩ := except_bind_eq_ok.mp h
  split at h
  · rename_i x' hr
    cases h
    unfold getDataAtIndex at hp
    split_ifs at hp
    exact ((m.dataFile.read_of_getDataAtOffset hp hr).2.2).symm
  · cases h

end FixedSizeFileMapper

namespace Cursor
variable {α : Type}

variable [Zero α] {c c' : Cursor α}

theorem step_write_eq {v : List α} (h : c.step (.write v) = some c') :
    c.pos ≤ c.cells.length ∧ c' = ⟨overwrite c.cells c.pos v, c.pos+v.length⟩ := by
  simp only [step] at h
  split_ifs at h with hp
  exact ⟨hp, (Option.some.inj h).symm⟩

theorem take_step_write {v : List α} {n : Nat} (hn : n ≤ c.pos) (h : c.step (.write v) = some c') :
    c'.cells.take n = c.cells.take n ∧ n ≤ c'.pos := by
  obtain ⟨hp, rfl⟩ := step_write_eq h
  exact ⟨take_overwrite_of_le hn hp, Nat.le_add_right_of_le hn⟩

theorem step_truncate_of_le {o : Nat} (ho : c.cells.length ≤ o) :
    c.step (.truncate o) = some ⟨c.cells ++ List.replicate (o-c.cells.length) 0, min c.pos o⟩ := by
  simp [step, List.take_of_length_le ho]

end Cursor

namespace IndexedFileMapper
variable {T : Streams}

/-- The index cells and the data bytes, each with its cursor. -/
structure Cursors where
  index : Cursor Nat
  data : Cursor UInt8

namespace Cursors
variable (c : Cursors)

def both (opI : SimpleFileMapper.Op Nat) (opD : SimpleFileMapper.Op UInt8) : Option Cursors := do
  let index ← c.index.step opI
  let data ← c.data.step opD
  pure ⟨index, data⟩

def step : IndexedFileMapper.Op T → Option Cursors
  | .write t => c.both (.write (c.data.pos :: List.replicate T.tail.length InvalidFileIndex)) (.write t.bytes)
  | .writeAt i k t =>
    if 0 < i ∧ i < T.indexCount ∧ k < c.index.cells.length/T.indexCount then
      (c.data.step (.write t.bytes)).map fun data =>
        ⟨⟨c.index.cells.set (k*T.indexCount+i) c.data.pos, c.index.pos⟩, data⟩
    else none
  | .clearBuffer | .reload => some c
  | .truncate k =>
    if k < c.index.cells.length/T.indexCount then
      c.both (.truncate (k*T.indexCount)) (.truncate (c.index.cells.getD (k*T.indexCount) 0))
    else some c
  | .seekEnd => c.both .seekEnd .seekEnd
  | .seek k o => c.both (.seek (k*T.indexCount)) (.seek o)
  | .grow k d =>
    c.both (.truncate ((c.index.cells.length/T.indexCount+k)*T.indexCount)) (.truncate (c.data.cells.length+d))

def run : Cursors → List (IndexedFileMapper.Op T) → Option Cursors
  | c, [] => some c
  | c, op :: ops => c.step op >>= fun c' => run c' ops

theorem both_eq_some {opI : SimpleFileMapper.Op Nat} {opD : SimpleFileMapper.Op UInt8} {c' : Cursors}
    (h : c.both opI opD = some c') :
    ∃ i d, c.index.step opI = some i ∧ c.data.step opD = some d ∧ c' = ⟨i, d⟩ := by
  simp only [both, Option.bind_eq_bind, Option.bind_eq_some, Option.pure_def, Option.some.injEq] at h
  obtain ⟨i, hi, d, hd, rfl⟩ := h
  exact ⟨i, d, hi, hd, rfl⟩

end Cursors

def cursors (m : IndexedFileMapper T) : Cursors := ⟨m.indexFile.dataFile.cursor, m.dataFile.cursor⟩

section refines
variable {m m' : IndexedFileMapper T}

theorem count_cursors (m : IndexedFileMapper T) : m.cursors.index.cells.length/T.indexCount = m.size := by
  simp only [cursors, SimpleFileMapper.cursor_cells, SimpleFileMapper.length_contents]
  rfl

theorem both_refines {opI : SimpleFileMapper.Op Nat} {opD : SimpleFileMapper.Op UInt8}
    {i' : SimpleFileMapper Nat} {d' : SimpleFileMapper UInt8}
    (hi : m.indexFile.dataFile.step opI = .ok i') (hd : m.dataFile.step opD = .ok d') :
    m.cursors.both opI opD = some ⟨i'.cursor, d'.cursor⟩ := by
  simp [Cursors.both, cursors, SimpleFileMapper.step_refines hi, SimpleFileMapper.step_refines hd]

theorem step_write_of {α : Type} [Zero α] {s s' : SimpleFileMapper α} {v : List α} {full : Bool}
    (h : s.write v = .ok (full, s')) : s.step (.write v) = .ok s' := by
  simp [SimpleFileMapper.step, h, Except.map]

theorem step_refines_cursors {op : Op T} (h : m.step op = .ok m') :
    m.cursors.step op = some m'.cursors := by
  cases op with
  | write t =>
    simp only [step, write, writeNewImp, Nat.mod_eq_zero_of_dvd t.align_dvd, if_true] at h
    obtain ⟨⟨_, idx⟩, hi, h⟩ := except_bind_eq_ok.mp h
    obtain ⟨⟨_, d⟩, hd, h⟩ := except_bind_eq_ok.mp h
    cases h
    exact both_refines (step_write_of (FixedSizeFileMapper.dataFile_write hi)) (step_write_of hd)
  | writeAt i k t =>
    simp only [step, writeAt, writeUpdateImp] at h
    split_ifs at h with hik ha
    obtain ⟨p, hp, h⟩ := except_bind_eq_ok.mp h
    obtain ⟨idx, hs, h⟩ := except_bind_eq_ok.mp h
    obtain ⟨⟨_, d⟩, hd, h⟩ := except_bind_eq_ok.mp h
    cases h
    obtain ⟨hc, hw⟩ := FixedSizeFileMapper.store_getDataAtIndex hp hs
    have hk : k < m.cursors.index.cells.length/T.indexCount := by
      unfold FixedSizeFileMapper.getDataAtIndex at hp
      split_ifs at hp with hk
      exact (count_cursors m).symm ▸ hk
    have hcd : m.cursors.data.step (.write t.bytes) = some d.cursor :=
      SimpleFileMapper.step_refines (step_write_of hd)
    simp only [Cursors.step, if_pos (And.intro hik.1 (And.intro hik.2 hk)), hcd, Option.map_some']
    simp only [cursors, SimpleFileMapper.cursor, hc, hw, SimpleFileMapper.getWriteOffset]
  | clearBuffer | reload =>
    cases h
    simp [Cursors.step, cursors, SimpleFileMapper.cursor, IndexedFileMapper.clearBuffer,
      IndexedFileMapper.reload, FixedSizeFileMapper.reload]
  | truncate k =>
    simp only [step, truncate] at h
    split_ifs at h with hk
    · obtain ⟨offsets, ho, h⟩ := except_bind_eq_ok.mp h
      cases h
      have hk' : k < m.cursors.index.cells.length/T.indexCount := (count_cursors m).symm ▸ hk
      -- `getOffsets(index)[0]` is the first cell of the record
      have hcell : m.cursors.index.cells.getD (k*T.indexCount) 0 = offsets.getD 0 0 := by
        rw [FixedSizeFileMapper.deref_ok ho]
        simp [FixedSizeFileMapper.record, cursors, List.getD_eq_getElem?_getD, List.getElem?_take,
          T.indexCount_pos]
      simp only [Cursors.step, if_pos hk', hcell]
      exact both_refines rfl rfl
    · cases h
      have hk' : ¬ k < m.cursors.index.cells.length/T.indexCount := (count_cursors m).symm ▸ hk
      simp only [Cursors.step, if_neg hk']
  | seekEnd => cases h; exact both_refines rfl rfl
  | seek k o => cases h; exact both_refines rfl rfl
  | grow k d =>
    cases h
    exact both_refines
      (by simp only [SimpleFileMapper.step, cursors, SimpleFileMapper.cursor_cells,
        SimpleFileMapper.length_contents]; rfl)
      (by simp only [SimpleFileMapper.step, cursors, SimpleFileMapper.cursor_cells,
        SimpleFileMapper.length_contents]; rfl)

/-- Every run the indexed store completes, whatever its calls, is a run of the two-array
machine and ends in its state: the logical contents and the cursors of both files. -/
theorem run_refines_cursors {ops : List (Op T)} (h : m.run ops = .ok m') :
    m.cursors.run ops = some m'.cursors := by
  induction ops generalizing m with
  | nil => cases h; rfl
  | cons op ops ih =>
    obtain ⟨m₁, h₁, h⟩ := except_bind_eq_ok.mp h
    simp only [Cursors.run, step_refines_cursors h₁, Option.bind_eq_bind, Option.some_bind]
    exact ih h

theorem run_refines_cursors_grown :
    ∃ m', (empty : IndexedFileMapper byteThenWord).run [.write (.value ⟨[7], rfl⟩), .grow 1 1,
        .seek 1 1, .write (.value ⟨[8], rfl⟩), .writeAt 1 0 (.value ⟨List.replicate 8 0, rfl⟩),
        .truncate 1] = .ok m' ∧
      (empty : IndexedFileMapper byteThenWord).cursors.run ([.write (.value ⟨[7], rfl⟩), .grow 1 1,
        .seek 1 1, .write (.value ⟨[8], rfl⟩), .writeAt 1 0 (.value ⟨List.replicate 8 0, rfl⟩),
        .truncate 1] : List (Op byteThenWord)) = some m'.cursors := by
  obtain ⟨m', h⟩ : ∃ m', (empty : IndexedFileMapper byteThenWord).run [.write (.value ⟨[7], rfl⟩),
      .grow 1 1, .seek 1 1, .write (.value ⟨[8], rfl⟩),
      .writeAt 1 0 (.value ⟨List.replicate 8 0, rfl⟩), .truncate 1] = .ok m' := ⟨_, rfl⟩
  exact ⟨m', h, run_refines_cursors h⟩

end refines

/-! ### Append-only runs: only `seek` and `truncate` move a cursor back -/

def Op.forward : Op T → Bool
  | .seek .. | .truncate _ => false
  | _ => true

namespace Cursors

/-- The machine state still holds the data bytes `d₀` and the stream-0 cells of the records of
`I₀`, with both cursors past them and the index made of whole records. -/
structure Keeps (T : Streams) (I₀ : List Nat) (d₀ : List UInt8) (c : Cursors) : Prop where
  data : c.data.cells.take d₀.length = d₀
  dataPos : d₀.length ≤ c.data.pos
  stream0 : ∀ k, k*T.indexCount < I₀.length → c.index.cells[k*T.indexCount]? = I₀[k*T.indexCount]?
  indexLen : I₀.length ≤ c.index.cells.length
  indexPos : I₀.length ≤ c.index.pos
  indexDvd : T.indexCount ∣ c.index.cells.length
  posDvd : T.indexCount ∣ c.index.pos

variable {I₀ : List Nat} {d₀ : List UInt8} {c c' : Cursors}

theorem Keeps.dataLen (hk : c.Keeps T I₀ d₀) : d₀.length ≤ c.data.cells.length := by
  have h := congrArg List.length hk.data
  rw [List.length_take] at h
  omega

theorem Keeps.step (hk : c.Keeps T I₀ d₀) {op : Op T} (hf : op.forward = true)
    (h : c.step op = some c') : c'.Keeps T I₀ d₀ := by
  cases op with
  | write t =>
    obtain ⟨i', d', hi, hd, rfl⟩ := both_eq_some c h
    obtain ⟨hiT, hip⟩ := Cursor.take_step_write hk.indexPos hi
    obtain ⟨hdT, hdp⟩ := Cursor.take_step_write hk.dataPos hd
    obtain ⟨hile, rfl⟩ := Cursor.step_write_eq hi
    have hlen := length_overwrite_of_le
      (b := c.data.pos :: List.replicate T.tail.length InvalidFileIndex) hile
    have hN : (c.data.pos :: List.replicate T.tail.length InvalidFileIndex).length = T.indexCount := by
      simp [Streams.indexCount]
    refine ⟨hdT.trans hk.data, hdp, fun k hkI => ?_, ?_, hip, ?_, ?_⟩
    · rw [← List.getElem?_take_of_lt hkI, hiT, List.getElem?_take_of_lt hkI, hk.stream0 k hkI]
    · rw [hlen]; exact Nat.le_trans hk.indexLen (Nat.le_max_left _ _)
    · rw [hlen, hN]; exact FixedSizeFileMapper.dvd_max hk.indexDvd (Nat.dvd_add hk.posDvd (Nat.dvd_refl _))
    · rw [hN]; exact Nat.dvd_add hk.posDvd (Nat.dvd_refl _)
  | writeAt i k t =>
    simp only [Cursors.step] at h
    split_ifs at h with hik
    obtain ⟨d', hd, rfl⟩ := Option.map_eq_some'.mp h
    obtain ⟨hdT, hdp⟩ := Cursor.take_step_write hk.dataPos hd
    refine ⟨hdT.trans hk.data, hdp, fun k' hkI => ?_, by simpa using hk.indexLen, hk.indexPos,
      by simpa using hk.indexDvd, hk.posDvd⟩
    -- an attachment cell `k * N + i` with `0 < i < N` is never a stream-0 cell
    have hne : k*T.indexCount+i ≠ k'*T.indexCount := fun he =>
      absurd ((mul_add_inj hik.2.1 T.indexCount_pos).mp (he.trans (Nat.add_zero _).symm)).2
        hik.1.ne'
    rw [List.getElem?_set_ne hne, hk.stream0 k' hkI]
  | clearBuffer | reload => cases h; exact hk
  | truncate | seek => cases hf
  | seekEnd =>
    obtain ⟨i', d', hi, hd, rfl⟩ := both_eq_some c h
    cases hi; cases hd
    exact ⟨hk.data, hk.dataLen, hk.stream0, hk.indexLen, hk.indexLen, hk.indexDvd, hk.indexDvd⟩
  | grow k d =>
    obtain ⟨i', d', hi, hd, rfl⟩ := both_eq_some c h
    have hgrow : (c.index.cells.length/T.indexCount+k)*T.indexCount =
        c.index.cells.length+k*T.indexCount := by
      rw [Nat.add_mul, Nat.div_mul_cancel hk.indexDvd]
    have hkN : T.indexCount ∣ c.index.cells.length+k*T.indexCount :=
      Nat.dvd_add hk.indexDvd (Nat.dvd_mul_left _ _)
    rw [hgrow, Cursor.step_truncate_of_le (Nat.le_add_right _ _)] at hi
    rw [Cursor.step_truncate_of_le (Nat.le_add_right _ _)] at hd
    cases hi; cases hd
    refine ⟨?_, le_min hk.dataPos (hk.dataLen.trans (Nat.le_add_right _ _)), fun k' hkI => ?_, ?_,
      le_min hk.indexPos (hk.indexLen.trans (Nat.le_add_right _ _)), ?_, FixedSizeFileMapper.dvd_min hk.posDvd hkN⟩
    · rw [List.take_append_of_le_length hk.dataLen, hk.data]
    · rw [List.getElem?_append_left (Nat.lt_of_lt_of_le hkI hk.indexLen), hk.stream0 k' hkI]
    · simp only [List.length_append, List.length_replicate]
      exact hk.indexLen.trans (Nat.le_add_right _ _)
    · simp only [List.length_append, List.length_replicate]
      rwa [Nat.add_sub_cancel_left]

end Cursors

theorem keeps_cursors {m : IndexedFileMapper T} (hm : m.AtEnd) :
    m.cursors.Keeps T m.view.index m.view.data where
  data := List.take_length _
  dataPos := by simp [cursors, view, hm.1]
  stream0 _ _ := rfl
  indexLen := le_rfl
  indexPos := by simp [cursors, view, hm.2]
  indexDvd := by
    simpa [cursors] using Nat.dvd_add m.indexFile.file_dvd m.indexFile.buffer_dvd
  posDvd := m.indexFile.writePos_dvd

theorem keeps_run {m m' : IndexedFileMapper T} {I₀ : List Nat} {d₀ : List UInt8} {ops : List (Op T)}
    (hk : m.cursors.Keeps T I₀ d₀) (hf : ∀ op ∈ ops, op.forward = true) (h : m.run ops = .ok m') :
    m'.cursors.Keeps T I₀ d₀ := by
  induction ops generalizing m with
  | nil => cases h; exact hk
  | cons op ops ih =>
    obtain ⟨m₁, h₁, h⟩ := except_bind_eq_ok.mp h
    exact ih (hk.step (hf op (List.mem_cons_self _ _)) (step_refines_cursors h₁))
      (fun o ho => hf o (List.mem_cons_of_mem _ ho)) h

/-- Append-only: a run without `seek` or `truncate`, completed from a store with both cursors
at the end, changes no byte of the data file and no entry's stream-0 offset. The old data is a
prefix of the new, and every old entry still points at the payload it was written with. -/
theorem run_forward_keeps {m m' : IndexedFileMapper T} {ops : List (Op T)} (hm : m.AtEnd)
    (hf : ∀ op ∈ ops, op.forward = true) (h : m.run ops = .ok m') :
    m.view.data <+: m'.view.data ∧ ∀ k < m.size, m'.view.cell T k 0 = m.view.cell T k 0 := by
  have hk := keeps_run (keeps_cursors hm) hf h
  refine ⟨List.prefix_iff_eq_take.mpr hk.data.symm, fun k hks => ?_⟩
  have hkI : k*T.indexCount < m.view.index.length := by
    rw [length_index, size_index_eq]
    exact mul_add_lt_mul T.indexCount_pos hks
  simp only [View.cell, List.getD_eq_getElem?_getD, Nat.add_zero]
  exact congrArg (·.getD 0) (hk.stream0 k hkI)

theorem run_forward_keeps_oneEntry :
    (ofFiles [7] [0, InvalidFileIndex] (by decide) : IndexedFileMapper byteThenWord).AtEnd ∧
      (∀ op ∈ ([.write (.value ⟨[8], rfl⟩), .grow 1 1, .writeAt 1 0 (.value ⟨List.replicate 8 0, rfl⟩),
        .seekEnd, .write (.value ⟨[9], rfl⟩)] : List (Op byteThenWord)), op.forward = true) ∧
      ∃ m', (ofFiles [7] [0, InvalidFileIndex] (by decide) : IndexedFileMapper byteThenWord).run
          [.write (.value ⟨[8], rfl⟩), .grow 1 1, .writeAt 1 0 (.value ⟨List.replicate 8 0, rfl⟩),
            .seekEnd, .write (.value ⟨[9], rfl⟩)] = .ok m' ∧
        ((ofFiles [7] [0, InvalidFileIndex] (by decide) : IndexedFileMapper byteThenWord).view.data <+:
            m'.view.data ∧
          ∀ k < (ofFiles [7] [0, InvalidFileIndex] (by decide) : IndexedFileMapper byteThenWord).size,
            m'.view.cell byteThenWord k 0 =
              (ofFiles [7] [0, InvalidFileIndex] (by decide) : IndexedFileMapper byteThenWord).view.cell
                byteThenWord k 0) := by
  obtain ⟨m', h⟩ : ∃ m', (ofFiles [7] [0, InvalidFileIndex] (by decide) : IndexedFileMapper byteThenWord).run
      [.write (.value ⟨[8], rfl⟩), .grow 1 1, .writeAt 1 0 (.value ⟨List.replicate 8 0, rfl⟩),
        .seekEnd, .write (.value ⟨[9], rfl⟩)] = .ok m' := ⟨_, by rfl⟩
  exact ⟨⟨rfl, rfl⟩, by decide, m', h, run_forward_keeps ⟨rfl, rfl⟩ (by decide) h⟩

/-! ### Liveness of forward runs: every forward call keeps each cursor at the end of its
file or inside the mapping with nothing buffered -/

namespace Cursors
variable {c c' : Cursors}

theorem Keeps.length_le_step (hk : c.Keeps T [] []) {op : Op T} (hf : op.forward = true)
    (h : c.step op = some c') : c.index.cells.length ≤ c'.index.cells.length := by
  cases op with
  | write t =>
    obtain ⟨i', d', hi, -, rfl⟩ := both_eq_some c h
    obtain ⟨hile, rfl⟩ := Cursor.step_write_eq hi
    rw [length_overwrite_of_le hile]
    exact Nat.le_max_left _ _
  | writeAt i k t =>
    simp only [Cursors.step] at h
    split_ifs at h
    obtain ⟨d', -, rfl⟩ := Option.map_eq_some'.mp h
    exact (List.length_set _ _ _).ge
  | clearBuffer | reload => cases h; exact le_rfl
  | truncate | seek => cases hf
  | seekEnd =>
    obtain ⟨i', d', hi, -, rfl⟩ := both_eq_some c h
    cases hi; exact le_rfl
  | grow k d =>
    obtain ⟨i', d', hi, -, rfl⟩ := both_eq_some c h
    rw [Nat.add_mul, Nat.div_mul_cancel hk.indexDvd,
      Cursor.step_truncate_of_le (Nat.le_add_right _ _)] at hi
    cases hi
    simp only [List.length_append]
    exact Nat.le_add_right _ _

theorem Keeps.length_le_run (hk : c.Keeps T [] []) {ops : List (Op T)}
    (hf : ∀ op ∈ ops, op.forward = true) (h : c.run ops = some c') :
    c.index.cells.length ≤ c'.index.cells.length := by
  induction ops generalizing c with
  | nil => cases h; exact le_rfl
  | cons op ops ih =>
    simp only [Cursors.run, Option.bind_eq_bind, Option.bind_eq_some] at h
    obtain ⟨c₁, h₁, h⟩ := h
    have hf₁ := hf op (List.mem_cons_self _ _)
    exact (hk.length_le_step hf₁ h₁).trans
      (ih (hk.step hf₁ h₁) (fun o ho => hf o (List.mem_cons_of_mem _ ho)) h)

end Cursors

theorem keeps_nil (m : IndexedFileMapper T) : m.cursors.Keeps T [] [] where
  data := rfl
  dataPos := Nat.zero_le _
  stream0 _ h := absurd h (Nat.not_lt_zero _)
  indexLen := Nat.zero_le _
  indexPos := Nat.zero_le _
  indexDvd := by
    simpa [cursors] using Nat.dvd_add m.indexFile.file_dvd m.indexFile.buffer_dvd
  posDvd := m.indexFile.writePos_dvd

end IndexedFileMapper

namespace SimpleFileMapper
variable {α : Type} {s : SimpleFileMapper α}

/-- The cursor at the end, or inside the mapping with nothing buffered. -/
def Safe (s : SimpleFileMapper α) : Prop :=
  s.writePos = s.size ∨ (s.writePos ≤ s.size ∧ s.buffer = [])

theorem Safe.le (hs : s.Safe) : s.writePos ≤ s.size := hs.elim Nat.le_of_eq And.left

theorem write_safe {v : List α} (hs : s.Safe) (hv : 0 < v.length) :
    ∃ full s', s.write v = .ok (full, s') ∧ s'.Safe := by
  obtain ⟨⟨full, s'⟩, hw⟩ := (s.write_ok_iff v).mpr (by
    rcases hs with h | ⟨h, hb⟩
    · exact .inl h
    · have h' : s.writePos ≤ s.file.length := by simpa [size, hb] using h
      rcases Nat.lt_or_eq_of_le h' with hlt | heq
      · exact .inr ⟨hlt, hv, .inr hb⟩
      · exact .inl (by simp [size, hb, heq]))
  obtain ⟨-, hp, -, hfb⟩ := s.write_spec v hw
  have hsz := s.size_write v hw hs.le
  refine ⟨full, s', hw, ?_⟩
  unfold Safe size at hs hsz ⊢
  simp only [← List.length_eq_zero] at hs hfb ⊢
  omega

theorem Safe.clearBuffer (hs : s.Safe) : s.clearBuffer.Safe :=
  .inr ⟨by rw [size_clearBuffer]; exact hs.le, rfl⟩

theorem safe_truncate [Zero α] (s : SimpleFileMapper α) (o : Nat) : (s.truncate o).Safe :=
  .inr ⟨by rw [truncate_writePos, size_truncate]; exact Nat.min_le_right _ _, rfl⟩

end SimpleFileMapper

namespace IndexedFileMapper
variable {m : IndexedFileMapper T}

def Safe (m : IndexedFileMapper T) : Prop := m.dataFile.Safe ∧ m.indexFile.dataFile.Safe

theorem step_safe (hm : m.Safe) {op : Op T} (hf : op.forward = true) {c : Cursors}
    (hc : m.cursors.step op = some c) (hsz : m.indexFile.dataFile.size ≤ InvalidFileIndex) :
    ∃ m', m.step op = .ok m' ∧ m'.Safe := by
  cases op with
  | write t =>
    obtain ⟨_, di, hiw, hi⟩ := SimpleFileMapper.write_safe hm.2
      (v := m.dataFile.getWriteOffset :: List.replicate T.tail.length InvalidFileIndex) (by simp)
    obtain ⟨idx, hidx, rfl⟩ := @FixedSizeFileMapper.write_of_dataFile _ _ m.indexFile _
      (by simp [Streams.indexCount]) _ _ hiw
    obtain ⟨_, dd, hdw, hd⟩ := SimpleFileMapper.write_safe hm.1 t.length_pos
    refine ⟨⟨dd, idx⟩, ?_, hd, hi⟩
    simp only [step, write, writeNewImp, Nat.mod_eq_zero_of_dvd t.align_dvd, if_true, hidx, hdw,
      Bind.bind, Except.bind]
  | writeAt i k t =>
    simp only [Cursors.step] at hc
    split_ifs at hc with hik
    have hk : k < m.size := count_cursors m ▸ hik.2.2
    obtain ⟨p, idx, hp, hs, -, hw, hfl, hbl⟩ :=
      m.indexFile.store_at T.indexCount_pos hk hik.2.1 hsz m.dataFile.getWriteOffset
    obtain ⟨_, dd, hdw, hd⟩ := SimpleFileMapper.write_safe hm.1 t.length_pos
    refine ⟨⟨dd, idx⟩, ?_, hd, ?_⟩
    · simp only [step, writeAt, writeUpdateImp, if_pos (And.intro hik.1 hik.2.1),
        Nat.mod_eq_zero_of_dvd t.align_dvd, if_true, hp, hs, hdw, Bind.bind, Except.bind]
    · have h2 := hm.2
      unfold SimpleFileMapper.Safe SimpleFileMapper.size at h2 ⊢
      simp only [← List.length_eq_zero, hw, hfl, hbl] at h2 ⊢
      exact h2
  | clearBuffer => exact ⟨_, rfl, hm.1.clearBuffer, hm.2.clearBuffer⟩
  | reload => exact ⟨_, rfl, hm.1.clearBuffer, hm.2.clearBuffer⟩
  | truncate | seek => cases hf
  | seekEnd => exact ⟨_, rfl, .inl rfl, .inl rfl⟩
  | grow k d => exact ⟨_, rfl, SimpleFileMapper.safe_truncate _ _, SimpleFileMapper.safe_truncate _ _⟩

/-- Liveness of forward runs: from a safe store, every run without `seek` or `truncate` that
the two-array machine completes, within `OffsetType`, the code completes too, in the machine's
state. With the refinement of every completed run, the code and the machine complete the same
forward runs from such a store. -/
theorem run_completes_of_forward (hm : m.Safe) {ops : List (Op T)} (hf : ∀ op ∈ ops, op.forward = true)
    {c : Cursors} (hc : m.cursors.run ops = some c) (hsz : c.index.cells.length ≤ InvalidFileIndex) :
    ∃ m', m.run ops = .ok m' ∧ m'.cursors = c := by
  induction ops generalizing m with
  | nil => cases hc; exact ⟨m, rfl, rfl⟩
  | cons op ops ih =>
    have hle := (keeps_nil m).length_le_run hf hc
    simp only [Cursors.run, Option.bind_eq_bind, Option.bind_eq_some] at hc
    obtain ⟨c₁, h₁, hc⟩ := hc
    have hf₁ := hf op (List.mem_cons_self _ _)
    obtain ⟨m₁, hm₁, hs₁⟩ := step_safe hm hf₁ h₁
      (by simpa [cursors] using hle.trans hsz)
    have hc₁ : c₁ = m₁.cursors := Option.some.inj (h₁.symm.trans (step_refines_cursors hm₁))
    subst hc₁
    obtain ⟨m', hm', rfl⟩ := ih hs₁ (fun o ho => hf o (List.mem_cons_of_mem _ ho)) hc
    exact ⟨m', by simp only [run, hm₁, Bind.bind, Except.bind]; exact hm', rfl⟩

theorem run_completes_of_forward_grown :
    (ofFiles [7] [0, InvalidFileIndex] (by decide) : IndexedFileMapper byteThenWord).Safe ∧
      (∀ op ∈ ([.grow 1 1, .write (.value ⟨[8], rfl⟩), .seekEnd, .write (.value ⟨[9], rfl⟩),
        .writeAt 1 0 (.value ⟨List.replicate 8 0, rfl⟩)] : List (Op byteThenWord)), op.forward = true) ∧
      ∃ c, (ofFiles [7] [0, InvalidFileIndex] (by decide) : IndexedFileMapper byteThenWord).cursors.run
          ([.grow 1 1, .write (.value ⟨[8], rfl⟩), .seekEnd, .write (.value ⟨[9], rfl⟩),
            .writeAt 1 0 (.value ⟨List.replicate 8 0, rfl⟩)] : List (Op byteThenWord)) = some c ∧
        c.index.cells.length ≤ InvalidFileIndex ∧
        ∃ m', (ofFiles [7] [0, InvalidFileIndex] (by decide) : IndexedFileMapper byteThenWord).run
            [.grow 1 1, .write (.value ⟨[8], rfl⟩), .seekEnd, .write (.value ⟨[9], rfl⟩),
              .writeAt 1 0 (.value ⟨List.replicate 8 0, rfl⟩)] = .ok m' ∧ m'.cursors = c :=
  ⟨⟨.inl rfl, .inl rfl⟩, by decide, _, by rfl, by decide,
    run_completes_of_forward ⟨.inl rfl, .inl rfl⟩ (by decide) (by rfl) (by decide)⟩

end IndexedFileMapper
end BlockSci
