import BlockSci.LogicalView

/-! Where the payloads of an indexed store start: offsets stay aligned when all payload
lengths share a common multiple of the alignments, and not otherwise. -/
namespace BlockSci
namespace IndexedFileMapper
variable {T : Streams}

namespace View

/-- The data size, every stream-0 offset and every other offset but `InvalidFileIndex` are
multiples of `A`. -/
structure Aligned (T : Streams) (A : Nat) (v : View) : Prop where
  data : A ∣ v.data.length
  cell : ∀ k i, i < T.indexCount → (i = 0 ∨ v.cell T k i ≠ InvalidFileIndex) → A ∣ v.cell T k i

variable {A : Nat} {v : View}

theorem Aligned.step (hw : v.Wf T) (ha : v.Aligned T A) {op : Op T} (hop : A ∣ op.bytes.length)
    {v' : View} (h : v.step op = some v') : v'.Aligned T A := by
  cases op with
  | write t =>
    cases h
    refine ⟨by simpa using Nat.dvd_add ha.data hop, fun k i hi hne => ?_⟩
    rw [cell_push hw.dvd hi] at hne ⊢
    split_ifs at hne ⊢ with hk hk' hi0
    · exact ha.cell k i hi hne
    · exact ha.data
    · simp [hi0] at hne
    · exact Nat.dvd_zero A
  | writeAt i k t =>
    simp only [View.step] at h
    split at h
    · cases h
      rename_i hik
      refine ⟨by simpa using Nat.dvd_add ha.data hop, fun j i' hi' hne => ?_⟩
      rw [cell_attach hik.2.1 hik.2.2 hi'] at hne ⊢
      split_ifs at hne ⊢
      · exact ha.data
      · exact ha.cell j i' hi' hne
    · cases h
  | clearBuffer | reload => cases h; exact ha
  | truncate k =>
    cases h
    split
    · rename_i hk
      refine ⟨?_, fun j i hi hne => ?_⟩
      · rw [data_cut, List.length_take, Nat.min_eq_left (hw.le k hk)]
        exact ha.cell k 0 T.indexCount_pos (.inl rfl)
      · rw [cell_cut hi] at hne ⊢
        split_ifs at hne ⊢
        · exact ha.cell j i hi hne
        · exact Nat.dvd_zero A
    · exact ha
  | seekEnd | seek | grow => cases h

theorem Aligned.run (hw : v.Wf T) (ha : v.Aligned T A) {ops : List (Op T)}
    (hops : ∀ op ∈ ops, A ∣ op.bytes.length) {v' : View} (h : v.run ops = some v') :
    v'.Aligned T A := by
  induction ops generalizing v with
  | nil => cases h; exact ha
  | cons op ops ih =>
    simp only [View.run, Option.bind_eq_bind, Option.bind_eq_some] at h
    obtain ⟨v₁, h₁, h₂⟩ := h
    exact ih (hw.step h₁) (ha.step hw (hops op (.head _)) h₁)
      (fun op' h' => hops op' (.tail _ h')) h₂

end View

theorem attachment_offset_misaligned :
    ((empty : IndexedFileMapper byteThenWord).run
        [.write (.value ⟨[0], rfl⟩), .writeAt 1 0 (.value ⟨List.replicate 8 0, rfl⟩)] >>=
      fun m => m.getOffsets 0) = .ok [0, 1] ∧ ¬ (byteThenWord.nthElement 1).align ∣ 1 :=
  ⟨rfl, by decide⟩

/-- Every offset is aligned for its stream when every payload's length is a multiple of a
common multiple `A` of all the alignments. -/
theorem offsets_aligned_of_common_multiple {A : Nat}
    (hA : ∀ i < T.indexCount, (T.nthElement i).align ∣ A) {ops : List (Op T)} {v : View}
    (hrun : (empty : IndexedFileMapper T).view.run ops = some v)
    (hbytes : ∀ op ∈ ops, A ∣ op.bytes.length) (hfit : View.fits ⟨[], []⟩ ops = true) :
    ∃ m, (empty : IndexedFileMapper T).run ops = .ok m ∧ ∀ k < m.size, ∃ offsets,
      m.getOffsets k = .ok offsets ∧ ∀ i < T.indexCount, offsets.getD i 0 ≠ InvalidFileIndex →
        (T.nthElement i).align ∣ offsets.getD i 0 := by
  obtain ⟨m, hm, hv, -⟩ := run_atEnd empty_atEnd wf_empty hrun hfit
  have ha : m.view.Aligned T A := hv ▸ View.Aligned.run wf_empty
    ⟨Nat.dvd_zero A, fun _ _ _ _ => Nat.dvd_zero A⟩ hbytes hrun
  have hidx : m.indexFile.dataFile.size ≤ InvalidFileIndex := by
    rw [← length_index, hv]; exact (View.within_run hrun hfit).1
  refine ⟨m, hm, fun k hk => ⟨_, m.getOffsets_eq hk hidx, fun i hi hne => ?_⟩⟩
  rw [m.getD_record hi] at hne ⊢
  exact Nat.dvd_trans (hA i hi) (ha.cell k i hi (.inr hne))

theorem offsets_aligned_padded_entry :
    ∃ m, (empty : IndexedFileMapper byteThenWord).run
        [.write (.arbitrary ⟨List.replicate 8 0, by decide⟩),
          .writeAt 1 0 (.value ⟨List.replicate 8 0, rfl⟩)] = .ok m ∧ ∀ k < m.size, ∃ offsets,
      m.getOffsets k = .ok offsets ∧ ∀ i < byteThenWord.indexCount,
        offsets.getD i 0 ≠ InvalidFileIndex → (byteThenWord.nthElement i).align ∣ offsets.getD i 0 :=
  offsets_aligned_of_common_multiple (A := 8) (v := ⟨[0, 8], List.replicate 16 0⟩) (by decide) rfl
    (by decide) rfl

end IndexedFileMapper
end BlockSci
