import BlockSci.LogicalView

/-! Truncating an indexed store to entry `k` and replaying every call from entry `k`'s
primary write onward gives back the same store. -/
namespace BlockSci
namespace IndexedFileMapper
variable {T : Streams}

/-- The calls of a run that the law replays: primary writes, attachments, flushes, reloads. -/
def Op.replayable : Op T → Bool
  | .write _ | .writeAt .. | .clearBuffer | .reload => true
  | _ => false

def Op.touches (c : Nat) : Op T → Prop
  | .writeAt i k _ => k*T.indexCount+i = c
  | _ => False

def primaryWritePos : List (Op T) → Nat → Nat
  | [], _ => 0
  | .write _ :: _, 0 => 0
  | .write _ :: ops, k+1 => primaryWritePos ops k+1
  | _ :: ops, k => primaryWritePos ops k+1

def ops₀ : List (Op byteThenWord) :=
  [.write (.value ⟨[1], rfl⟩), .write (.value ⟨[2], rfl⟩),
    .writeAt 1 0 (.value ⟨List.replicate 8 0, rfl⟩), .clearBuffer, .write (.value ⟨[3], rfl⟩)]

namespace View
variable {w v : View}

theorem getD_set_ne {l : List Nat} {c c' : Nat} (x : Nat) (h : c ≠ c') :
    (l.set c x).getD c' 0 = l.getD c' 0 := by
  simp [List.getD_eq_getElem?_getD, List.getElem?_set, h]

theorem getD_set_self {l : List Nat} {c : Nat} (x : Nat) (h : c < l.length) :
    (l.set c x).getD c 0 = x := by
  simp [List.getD_eq_getElem?_getD, List.getElem?_set, h]

theorem list_eq_of_getD {l l' : List Nat} (hl : l.length = l'.length)
    (h : ∀ c, l.getD c 0 = l'.getD c 0) : l = l' := by
  refine List.ext_getElem hl fun c h₁ h₂ => ?_
  have := h c
  rwa [List.getD_eq_getElem _ _ h₁, List.getD_eq_getElem _ _ h₂] at this

theorem step_frame {op : Op T} (hop : op.replayable = true) (h : w.step op = some v) :
    (∃ s, v.data = w.data ++ s) ∧ w.index.length ≤ v.index.length ∧
      ∀ c < w.index.length, ¬op.touches c → v.index.getD c 0 = w.index.getD c 0 := by
  cases op with
  | write t =>
    cases h
    exact ⟨⟨_, rfl⟩, by simp [View.push], fun c hc _ => List.getD_append _ _ _ _ hc⟩
  | writeAt i k t =>
    simp only [View.step] at h
    split at h
    · cases h
      exact ⟨⟨_, rfl⟩, by simp [View.attach], fun c _ hc => getD_set_ne _ hc⟩
    · cases h
  | clearBuffer | reload => cases h; exact ⟨⟨[], by simp⟩, le_rfl, fun _ _ _ => rfl⟩
  | truncate | seekEnd | seek | grow => cases hop

theorem run_frame {ops : List (Op T)} (hops : ∀ op ∈ ops, op.replayable = true)
    (h : w.run ops = some v) : (∃ s, v.data = w.data ++ s) ∧ w.index.length ≤ v.index.length ∧
      ∀ c < w.index.length, (∀ op ∈ ops, ¬op.touches c) → v.index.getD c 0 = w.index.getD c 0 := by
  induction ops generalizing w with
  | nil => cases h; exact ⟨⟨[], by simp⟩, le_rfl, fun _ _ _ => rfl⟩
  | cons op ops ih =>
    simp only [View.run, Option.bind_eq_bind, Option.bind_eq_some] at h
    obtain ⟨w₁, h₁, h₂⟩ := h
    obtain ⟨⟨s₁, hs₁⟩, hl₁, hc₁⟩ := step_frame (hops op (.head _)) h₁
    obtain ⟨⟨s₂, hs₂⟩, hl₂, hc₂⟩ := ih (fun op h => hops op (.tail _ h)) h₂
    refine ⟨⟨s₁ ++ s₂, by rw [hs₂, hs₁, List.append_assoc]⟩, hl₁.trans hl₂, fun c hc hn => ?_⟩
    rw [hc₂ c (by omega) fun op h => hn op (.tail _ h), hc₁ c hc (hn op (.head _))]

theorem not_touches_stream_zero {ops : List (Op T)} (h : w.run ops = some v) :
    ∀ op ∈ ops, ∀ k, ¬op.touches (k*T.indexCount) := by
  induction ops generalizing w with
  | nil => simp
  | cons op ops ih =>
    simp only [View.run, Option.bind_eq_bind, Option.bind_eq_some] at h
    obtain ⟨w₁, h₁, h₂⟩ := h
    intro op' hop' k
    rcases List.mem_cons.mp hop' with rfl | hop'
    · cases op' with
      | writeAt i j t =>
        simp only [View.step] at h₁
        split at h₁
        · rename_i hik
          have := (mul_add_inj (k := j) (j := k) hik.2.1 T.indexCount_pos).not.mpr (by omega)
          simpa [Op.touches] using this
        · cases h₁
      | _ => simp [Op.touches]
    · exact ih h₂ op' hop' k

theorem step_congr {op : Op T} (hop : op.replayable = true) {w w' : View} {P : Nat → Prop}
    (hd : w.data = w'.data) (hl : w.index.length = w'.index.length)
    (hc : ∀ c, ¬op.touches c → P c → w.index.getD c 0 = w'.index.getD c 0) :
    Option.Rel (fun u u' : View => u.data = u'.data ∧ u.index.length = u'.index.length ∧
      ∀ c, P c → u.index.getD c 0 = u'.index.getD c 0) (w.step op) (w'.step op) := by
  cases op with
  | write t =>
    refine .some ⟨by simp [hd], by simp [length_index_push, hl], fun c hp => ?_⟩
    simp only [View.push, hd]
    by_cases hcl : c < w.index.length
    · rw [List.getD_append _ _ _ _ hcl, List.getD_append _ _ _ _ (hl ▸ hcl)]
      exact hc c (by simp [Op.touches]) hp
    · rw [List.getD_append_right _ _ _ _ (by omega), List.getD_append_right _ _ _ _ (by omega), hl]
  | writeAt i k t =>
    have hcount : w.count T = w'.count T := by simp [count, hl]
    simp only [View.step]
    by_cases hik : 0 < i ∧ i < T.indexCount ∧ k < w.count T
    · rw [if_pos hik, if_pos (hcount ▸ hik)]
      refine .some ⟨by simp [hd], by simp [View.attach, hl], fun c hp => ?_⟩
      simp only [View.attach]
      by_cases hck : k*T.indexCount+i = c
      · subst hck
        have hlt : k*T.indexCount+i < w.index.length :=
          Nat.lt_of_lt_of_le (mul_add_lt_mul hik.2.1 hik.2.2) (Nat.div_mul_le_self _ _)
        rw [getD_set_self _ hlt, getD_set_self _ (hl ▸ hlt), hd]
      · rw [getD_set_ne _ hck, getD_set_ne _ hck]
        exact hc c hck hp
    · rw [if_neg hik, if_neg (hcount ▸ hik)]
      exact .none
  | clearBuffer | reload => exact .some ⟨hd, hl, fun c hp => hc c (by simp [Op.touches]) hp⟩
  | truncate | seekEnd | seek | grow => cases hop

theorem run_congr {ops : List (Op T)} (hops : ∀ op ∈ ops, op.replayable = true) {w w' : View}
    (hd : w.data = w'.data) (hl : w.index.length = w'.index.length)
    (hc : ∀ c, (∀ op ∈ ops, ¬op.touches c) → w.index.getD c 0 = w'.index.getD c 0) :
    w.run ops = w'.run ops := by
  induction ops generalizing w w' with
  | nil =>
    have : w = w' := by
      cases w; cases w'
      simp only at hd hl; subst hd
      rw [list_eq_of_getD hl fun c => hc c (by simp)]
    rw [this]
  | cons op ops ih =>
    have hrel := step_congr (P := fun c => ∀ op ∈ ops, ¬op.touches c) (hops op (.head _)) hd hl
      fun c hn hp => hc c fun op' h => (List.mem_cons.mp h).elim (fun e => e ▸ hn) (hp op')
    simp only [View.run]
    generalize w.step op = u at hrel ⊢
    generalize w'.step op = u' at hrel ⊢
    cases hrel with
    | none => rfl
    | some h => exact ih (fun op h => hops op (.tail _ h)) h.1 h.2.1 h.2.2

/-- The `j`th primary write from `w` splits the run: before it the run has made `j` more
entries, and the rest starts with it. -/
theorem run_split {ops : List (Op T)} (hops : ∀ op ∈ ops, op.replayable = true)
    (h : w.run ops = some v) {j : Nat} (hj : w.count T+j < v.count T) :
    ∃ u t rest, w.run (ops.take (primaryWritePos ops j)) = some u ∧
      ops.drop (primaryWritePos ops j) = .write t :: rest ∧ u.count T = w.count T+j := by
  induction ops generalizing w j with
  | nil => cases h; omega
  | cons op ops ih =>
    simp only [View.run, Option.bind_eq_bind, Option.bind_eq_some] at h
    obtain ⟨w₁, h₁, h₂⟩ := h
    have hops' : ∀ op ∈ ops, op.replayable = true := fun op h => hops op (.tail _ h)
    cases op with
    | write t =>
      cases h₁
      cases j with
      | zero => exact ⟨w, t, ops, rfl, rfl, rfl⟩
      | succ j =>
        obtain ⟨u, t', rest, hu, hd, hc⟩ := ih hops' h₂ (j := j) (by rw [count_push]; omega)
        refine ⟨u, t', rest, ?_, hd, by rw [hc, count_push]; omega⟩
        simpa [primaryWritePos, View.run] using hu
    | writeAt i k t =>
      simp only [View.step] at h₁
      split at h₁
      · cases h₁
        obtain ⟨u, t', rest, hu, hd, hc⟩ := ih hops' h₂ (j := j) (by rw [count_attach]; omega)
        refine ⟨u, t', rest, ?_, by simpa [primaryWritePos] using hd, by rw [hc, count_attach]⟩
        simp [primaryWritePos, View.run, View.step, *]
      · cases h₁
    | clearBuffer | reload =>
      cases h₁
      obtain ⟨u, t', rest, hu, hd, hc⟩ := ih hops' h₂ (j := j) hj
      exact ⟨u, t', rest, by simpa [primaryWritePos, View.run, View.step] using hu,
        by simpa [primaryWritePos] using hd, hc⟩
    | truncate | seekEnd | seek | grow => cases hops _ (.head _)

theorem fits_of_replayable {ops : List (Op T)} (hops : ∀ op ∈ ops, op.replayable = true)
    (h : w.run ops = some v) (hv : v.Within) : w.fits ops = true := by
  induction ops generalizing w with
  | nil => cases h; exact fits_nil.mpr hv
  | cons op ops ih =>
    obtain ⟨⟨s, hs⟩, hl, -⟩ := run_frame hops h
    simp only [View.run, Option.bind_eq_bind, Option.bind_eq_some] at h
    obtain ⟨w₁, h₁, h₂⟩ := h
    have hd := congrArg List.length hs
    rw [List.length_append] at hd
    refine fits_cons.mpr ⟨⟨by have := hv.1; omega, by have := hv.2; omega⟩, fun v' h' => ?_⟩
    rw [h₁] at h'; cases h'
    exact ih (fun op h => hops op (.tail _ h)) h₂

theorem fits_append {w' : View} {a b : List (Op T)} (h : w.run a = some w')
    (ha : w.fits a = true) (hb : w'.fits b = true) : w.fits (a ++ b) = true := by
  induction a generalizing w with
  | nil => cases h; exact hb
  | cons op a ih =>
    simp only [View.run, Option.bind_eq_bind, Option.bind_eq_some] at h
    obtain ⟨w₁, h₁, h₂⟩ := h
    obtain ⟨hw, hrest⟩ := fits_cons.mp ha
    refine fits_cons.mpr ⟨hw, fun v' h' => ?_⟩
    rw [h₁] at h'; cases h'
    exact ih h₂ (hrest _ h₁)

theorem run_truncate_replay {ops : List (Op T)} (hops : ∀ op ∈ ops, op.replayable = true)
    (h : View.run ⟨[], []⟩ ops = some v) {k : Nat} (hk : k < v.count T) :
    v.run (.truncate k :: ops.drop (primaryWritePos ops k)) = some v := by
  obtain ⟨u, t, rest, hu, hdrop, hcu⟩ := run_split hops h (j := k) (by simpa [count] using hk)
  have hpost : u.run (ops.drop (primaryWritePos ops k)) = some v := by
    have := View.run_append ⟨[], []⟩ (ops.take (primaryWritePos ops k)) (ops.drop (primaryWritePos ops k))
    rw [List.take_append_drop, h, hu] at this
    exact this.symm
  have hpostops : ∀ op ∈ ops.drop (primaryWritePos ops k), op.replayable = true :=
    fun op hop => hops op (List.mem_of_mem_drop hop)
  rw [hdrop] at hpost hpostops ⊢
  have hrest : (u.push T t.bytes).run rest = some v := hpost
  have hwu : u.Wf T := wf_empty.run hu
  have hcu' : u.count T = k := by simpa [count] using hcu
  have hlen : u.index.length = k*T.indexCount := by
    rw [← hcu']; exact (Nat.div_mul_cancel hwu.dvd).symm
  obtain ⟨⟨s, hs⟩, hl, hc⟩ := run_frame hpostops hpost
  obtain ⟨-, -, hc'⟩ := run_frame (fun op h => hpostops op (.tail _ h)) hrest
  have hcell : v.cell T k 0 = u.data.length := by
    have hpush := cell_push (b := t.bytes) (k := k) hwu.dvd T.indexCount_pos
    rw [if_neg (by omega), if_pos hcu'.symm, if_pos rfl] at hpush
    unfold cell at hpush ⊢
    rw [hc' _ (by rw [length_index_push, hlen]; exact Nat.lt_add_of_pos_right T.indexCount_pos)
      fun op hop => by simpa using not_touches_stream_zero hrest op hop k, hpush]
  have hkN : k*T.indexCount ≤ v.index.length := hlen ▸ hl
  have hcong := @run_congr T _ hpostops (v.cut T k) u
    (by rw [data_cut, hcell, hs, List.take_left]) (by simp [View.cut, hkN, hlen]) fun c hn => by
      by_cases hck : c < k*T.indexCount
      · simp only [View.cut, List.getD_eq_getElem?_getD, List.getElem?_take, if_pos hck]
        simpa [List.getD_eq_getElem?_getD] using hc c (by omega) hn
      · rw [List.getD_eq_default _ _ (by simp [View.cut]; omega),
          List.getD_eq_default _ _ (by omega)]
  have hstep : v.step (Op.truncate (T := T) k) = some (v.cut T k) := by simp [View.step, hk]
  rw [View.run, hstep]
  exact hcong.trans hpost

end View

/-- The truncate-append law: after a run from empty files of primary writes, attachments to
existing entries, flushes and reloads that keeps both files within `OffsetType`, and for
every entry `k`, truncating to `k` and replaying the calls from entry `k`'s primary write on
ends with the same logical contents of both files, the same cursors and the same `size()`. -/
theorem truncate_replay {ops : List (Op T)} (hops : ∀ op ∈ ops, op.replayable = true) {v : View}
    (hrun : View.run ⟨[], []⟩ ops = some v) (hfit : View.fits ⟨[], []⟩ ops = true) :
    ∃ m, (empty : IndexedFileMapper T).run ops = .ok m ∧ ∀ k < m.size, ∃ m',
      (empty : IndexedFileMapper T).run (ops ++ .truncate k :: ops.drop (primaryWritePos ops k)) =
        .ok m' ∧ m'.view = m.view ∧ m'.dataFile.writePos = m.dataFile.writePos ∧
      m'.indexFile.dataFile.writePos = m.indexFile.dataFile.writePos ∧ m'.size = m.size := by
  obtain ⟨m, hm, hmv, hme⟩ := run_atEnd empty_atEnd wf_empty hrun hfit
  refine ⟨m, hm, fun k hk => ?_⟩
  rw [size_eq_count, hmv] at hk
  have hrep := View.run_truncate_replay hops hrun hk
  have hall : View.run ⟨[], []⟩ (ops ++ .truncate k :: ops.drop (primaryWritePos ops k)) = some v := by
    rw [View.run_append, hrun]; exact hrep
  have hwv := View.within_run hrun hfit
  have hfit' : View.fits ⟨[], []⟩ (ops ++ .truncate k :: ops.drop (primaryWritePos ops k)) = true := by
    refine View.fits_append hrun hfit (View.fits_cons.mpr ⟨hwv, fun v' h' => ?_⟩)
    have hcut : v.step (Op.truncate (T := T) k) = some (v.cut T k) := by simp [View.step, hk]
    rw [hcut] at h'; cases h'
    refine View.fits_of_replayable (fun op h => hops op (List.mem_of_mem_drop h)) ?_ hwv
    simpa [View.run, hcut] using hrep
  obtain ⟨m', hm', hm'v, hm'e⟩ := run_atEnd empty_atEnd wf_empty hall hfit'
  refine ⟨m', hm', hm'v.trans hmv.symm, ?_, ?_, ?_⟩
  · rw [hm'e.1, hme.1, ← length_data, ← length_data, hm'v, hmv]
  · rw [hm'e.2, hme.2, ← length_index, ← length_index, hm'v, hmv]
  · rw [size_eq_count, size_eq_count, hm'v, hmv]

theorem truncate_replay_attachment_after_entry :
    ∃ m, (empty : IndexedFileMapper byteThenWord).run ops₀ = .ok m ∧ ∀ k < m.size, ∃ m',
      (empty : IndexedFileMapper byteThenWord).run
          (ops₀ ++ .truncate k :: ops₀.drop (primaryWritePos ops₀ k)) = .ok m' ∧
        m'.view = m.view ∧ m'.dataFile.writePos = m.dataFile.writePos ∧
        m'.indexFile.dataFile.writePos = m.indexFile.dataFile.writePos ∧ m'.size = m.size :=
  truncate_replay (by decide) (v := ⟨[0, 2, 1, InvalidFileIndex, 10, InvalidFileIndex],
    [1, 2] ++ List.replicate 8 0 ++ [3]⟩) rfl rfl

/-! Truncation from any state. -/

/-- `truncate(k)` from any state, seeks and out-of-order fills included, cuts the data at
entry `k`'s stream-0 offset, whatever the offsets of the entries it keeps. Each entry `j < k`
keeps its offsets, and its stream `i` still reads exactly when the offset lies below the cut or
is `InvalidFileIndex`: a payload at or past the cut is lost. Truncation keeps every earlier
entry only when stream-0 offsets grow with the entries, as in appending runs. -/
theorem truncate_keeps_iff (m : IndexedFileMapper T) {i j k : Nat} (hi : i < T.indexCount)
    (hj : j < k) (hk : k < m.size) (hsz : m.indexFile.dataFile.size ≤ InvalidFileIndex) :
    ∃ m', m.truncate k = .ok m' ∧ m'.size = k ∧
      m'.view.data = m.view.data.take (m.view.cell T k 0) ++
        List.replicate (m.view.cell T k 0-m.view.data.length) 0 ∧
      m'.view.cell T j i = m.view.cell T j i ∧
      ((∃ p, m'.getDataAtIndex i j = .ok p) ↔
        m.view.cell T j i < m.view.cell T k 0 ∨ m.view.cell T j i = InvalidFileIndex) := by
  have hkN := m.indexFile.mul_add_le_size T.indexCount_pos hk
  let m' : IndexedFileMapper T := ⟨m.dataFile.truncate (m.view.cell T k 0), m.indexFile.truncate k⟩
  have hidx : m'.view.index = (m.view.cut T k).index := by
    simp only [m', view, View.cut, FixedSizeFileMapper.dataFile_truncate, SimpleFileMapper.contents,
      SimpleFileMapper.truncate_file, SimpleFileMapper.truncate_buffer, List.append_nil,
      show k*T.indexCount-m.indexFile.dataFile.size = 0 by omega, List.replicate_zero]
  have hsize : m'.size = k := by
    simp only [m', size, FixedSizeFileMapper.size, FixedSizeFileMapper.dataFile_truncate,
      SimpleFileMapper.size_truncate, Nat.mul_div_cancel _ T.indexCount_pos]
  have hcell : m'.view.cell T j i = m.view.cell T j i := by
    rw [show m'.view.cell T j i = (m.view.cut T k).cell T j i by simp only [View.cell, hidx],
      View.cell_cut hi, if_pos hj]
  have hsz' : m'.indexFile.dataFile.size ≤ InvalidFileIndex := by
    simp only [m', FixedSizeFileMapper.dataFile_truncate, SimpleFileMapper.size_truncate]
    omega
  refine ⟨m', by simp only [truncate, if_pos hk, m.getOffsets_eq hk hsz, Bind.bind, Except.bind,
      m.getD_record T.indexCount_pos], hsize, ?_, hcell, ?_⟩
  · simp only [m', view, SimpleFileMapper.contents, SimpleFileMapper.truncate_file,
      SimpleFileMapper.truncate_buffer, List.append_nil, SimpleFileMapper.size, List.length_append]
  · rw [m'.getDataAtIndex_ok_iff (hsize ▸ hj) hsz' hi, OffsetOk, hcell]
    simp only [m', SimpleFileMapper.size_truncate]

theorem truncate_keeps_iff_out_of_order :
    0 < byteThenWord.indexCount ∧ 0 < 1 ∧
      1 < (ofFiles [8, 7] [1, InvalidFileIndex, 0, InvalidFileIndex] (by decide) :
        IndexedFileMapper byteThenWord).size ∧
      (ofFiles [8, 7] [1, InvalidFileIndex, 0, InvalidFileIndex] (by decide) :
        IndexedFileMapper byteThenWord).indexFile.dataFile.size ≤ InvalidFileIndex ∧
      ∃ m', (ofFiles [8, 7] [1, InvalidFileIndex, 0, InvalidFileIndex] (by decide) :
          IndexedFileMapper byteThenWord).truncate 1 = .ok m' ∧ m'.size = 1 ∧
        m'.view.data = ([8, 7] : List UInt8).take 0 ++ List.replicate (0-2) 0 ∧
        m'.view.cell byteThenWord 0 0 = 1 ∧
        ((∃ p, m'.getDataAtIndex 0 0 = .ok p) ↔ 1 < 0 ∨ 1 = InvalidFileIndex) :=
  ⟨by decide, by decide, by decide, by decide,
    truncate_keeps_iff (ofFiles [8, 7] [1, InvalidFileIndex, 0, InvalidFileIndex] (by decide))
      (by decide) (by decide) (by decide) (by decide)⟩

end IndexedFileMapper
end BlockSci
