import BlockSci.SimpleFileMapper

/-! The append path of `SimpleFileMapper<write>::write`, case by case. It succeeds exactly
when the cursor is at the end, or inside the mapping with a write that fits there or an
empty buffer; a cursor inside the buffer always stops it. -/
namespace BlockSci
variable {α : Type}

theorem length_overwrite {l b : List α} {pos : Nat} (h : pos+b.length ≤ l.length) :
    (overwrite l pos b).length = l.length := by
  simp [overwrite]; omega

theorem overwrite_append_left {l r b : List α} {pos : Nat} (h : pos+b.length ≤ l.length) :
    overwrite (l ++ r) pos b = overwrite l pos b ++ r := by
  simp [overwrite, List.take_append_eq_append_take, List.drop_append_eq_append_drop,
    Nat.sub_eq_zero_of_le h, Nat.sub_eq_zero_of_le (Nat.le_of_add_right_le h)]

theorem overwrite_of_le {l b : List α} {pos : Nat} (h : l.length ≤ pos+b.length) :
    overwrite l pos b = l.take pos ++ b := by
  simp [overwrite, List.drop_eq_nil_of_le h]

theorem overwrite_length (l b : List α) : overwrite l l.length b = l ++ b := by
  simp [overwrite_of_le (Nat.le_add_right _ _)]

theorem overwrite_singleton {l : List α} {c : Nat} (x : α) (h : c < l.length) :
    overwrite l c [x] = l.set c x := by
  simp [overwrite, List.set_eq_take_cons_drop x h]

theorem getElem?_overwrite {l b : List α} {pos : Nat} (h : pos+b.length ≤ l.length) (i : Nat) :
    (overwrite l pos b)[i]? = if pos ≤ i ∧ i < pos+b.length then b[i-pos]? else l[i]? := by
  have htake : (l.take pos).length = pos := by simp; omega
  unfold overwrite
  by_cases hi : i < pos+b.length
  · rw [List.getElem?_append_left (by simp [htake, hi])]
    by_cases hp : pos ≤ i
    · rw [if_pos ⟨hp, hi⟩, List.getElem?_append_right (by omega), htake]
    · rw [if_neg (fun h => hp h.1), List.getElem?_append_left (by omega), List.getElem?_take,
        if_pos (by omega)]
  · rw [if_neg (fun h => hi h.2), List.getElem?_append_right (by simp [htake]; omega),
      List.getElem?_drop]
    simp only [List.length_append, htake]
    congr 1; omega

theorem take_overwrite_of_le {l b : List α} {pos n : Nat} (hn : n ≤ pos) (hp : pos ≤ l.length) :
    (overwrite l pos b).take n = l.take n := by
  unfold overwrite
  rw [List.append_assoc, List.take_append_of_le_length (by simp; omega), List.take_take,
    Nat.min_eq_left hn]

theorem length_overwrite_of_le {l b : List α} {pos : Nat} (hp : pos ≤ l.length) :
    (overwrite l pos b).length = max l.length (pos+b.length) := by
  simp only [overwrite, List.length_append, List.length_take, List.length_drop]
  omega

theorem length_le_overwrite (l b : List α) (pos : Nat) : l.length ≤ (overwrite l pos b).length := by
  simp only [overwrite, List.length_append, List.length_take, List.length_drop]
  omega

theorem getElem?_overwrite_of_not_mem {l b : List α} {pos i : Nat} (hp : pos ≤ l.length)
    (hi : i < pos ∨ pos+b.length ≤ i) : (overwrite l pos b)[i]? = l[i]? := by
  have htake : (l.take pos).length = pos := by simp; omega
  unfold overwrite
  rcases hi with hi | hi
  · rw [List.append_assoc, List.getElem?_append_left (by omega), List.getElem?_take, if_pos hi]
  · rw [List.getElem?_append_right (by simp [htake]; omega), List.getElem?_drop]
    simp only [List.length_append, htake]
    congr 1; omega

theorem take_drop_overwrite {l b : List α} {pos : Nat} (hp : pos ≤ l.length) :
    ((overwrite l pos b).drop pos).take b.length = b := by
  unfold overwrite
  rw [List.append_assoc, List.drop_left' (by simp; omega), List.take_left' rfl]

theorem take_drop_overwrite_of_disjoint {l b : List α} {pos q n : Nat} (hp : pos ≤ l.length)
    (h : q+n ≤ pos ∨ pos+b.length ≤ q) : ((overwrite l pos b).drop q).take n = (l.drop q).take n :=
  List.ext_getElem? fun c => by
    rw [List.getElem?_take, List.getElem?_take, List.getElem?_drop, List.getElem?_drop]
    split_ifs
    · exact getElem?_overwrite_of_not_mem hp (by omega)
    · rfl

namespace SimpleFileMapper
variable (s : SimpleFileMapper α) (v : List α)

theorem writeRegion_of_lt_file (h : s.writePos < s.file.length) :
    s.writeRegion v = .ok
      ({ s with file := overwrite s.file s.writePos (v.take (min v.length (s.file.length-s.writePos))),
                writePos := s.writePos+min v.length (s.file.length-s.writePos) },
        v.drop (min v.length (s.file.length-s.writePos))) := by
  have hk : (min (v.length : Int) (s.file.length-s.writePos)).toNat =
      min v.length (s.file.length-s.writePos) := by omega
  simp only [writeRegion, writeSpace, getWritePos, memcpy, if_pos h, hk]
  rw [if_neg (by omega), if_pos (by omega)]
  simp only [Except.map, Except.ok.injEq, Prod.mk.injEq, and_true]
  congr 1; omega

theorem writeRegion_in_buffer (h1 : s.file.length ≤ s.writePos) (h2 : s.writePos < s.size) :
    s.writeRegion v = .error .negativeCopy := by
  unfold size at h2
  simp only [writeRegion, writeSpace, memcpy, if_neg (Nat.not_lt.mpr h1), if_pos h2]
  rw [if_pos (by omega)]; rfl

theorem writeEnd_of_eq {fileEnd : Nat} (h : s.writePos = fileEnd+s.buffer.length) :
    s.writeEnd fileEnd v = .ok (decide (s.maxBufferSize < s.buffer.length+v.length),
      if s.maxBufferSize < s.buffer.length+v.length then
        { s with file := s.file ++ (s.buffer ++ v), buffer := [], writePos := s.writePos+v.length }
      else { s with buffer := s.buffer ++ v, writePos := s.writePos+v.length }) := by
  simp only [writeEnd, if_pos h, List.length_append]
  by_cases hc : s.maxBufferSize < s.buffer.length+v.length <;> simp [hc, clearBuffer]

theorem writeEnd_of_ne {fileEnd : Nat} (h : s.writePos ≠ fileEnd+s.buffer.length) :
    s.writeEnd fileEnd v = .error .writePosAtEnd := by
  simp [writeEnd, h]

theorem writeBuffered_of_not {fileEnd : Nat} (h : ¬ s.writePos < s.buffer.length) :
    s.writeBuffered fileEnd v = s.writeEnd fileEnd v := by
  simp [writeBuffered, h]

theorem writeBuffered_of_lt {fileEnd : Nat} (h0 : fileEnd ≤ s.writePos)
    (h1 : s.file.length ≤ s.writePos) (h2 : s.writePos < s.buffer.length) :
    s.writeBuffered fileEnd v = .error .negativeCopy := by
  have h3 : s.writePos < s.size := by unfold size; omega
  simp only [writeBuffered, if_pos (And.intro h0 h2), writeRegion_in_buffer s v h1 h3]; rfl

/-! The three ways a write succeeds. -/

theorem write_of_writePos_eq_size (h : s.writePos = s.size) :
    s.write v = .ok (decide (s.maxBufferSize < s.buffer.length+v.length),
      if s.maxBufferSize < s.buffer.length+v.length then
        { s with file := s.file ++ (s.buffer ++ v), buffer := [], writePos := s.size+v.length }
      else { s with buffer := s.buffer ++ v, writePos := s.size+v.length }) := by
  unfold size at h
  simp only [write, if_neg (show ¬ s.writePos < s.file.length by omega)]
  rw [writeBuffered_of_not _ _ (by omega), writeEnd_of_eq _ _ h, h]; rfl

theorem write_of_fits (hw : s.writePos < s.file.length) (hv : 0 < v.length)
    (hfit : s.writePos+v.length ≤ s.file.length) :
    s.write v = .ok (false,
      { s with file := overwrite s.file s.writePos v, writePos := s.writePos+v.length }) := by
  have hk : min v.length (s.file.length-s.writePos) = v.length := by omega
  simp only [write, if_pos hw, writeSpace]
  rw [if_pos (by omega), writeRegion_of_lt_file _ _ hw, hk]
  simp [Bind.bind, Except.bind]

theorem write_of_spill (hw : s.writePos < s.file.length)
    (hfit : s.file.length < s.writePos+v.length) (hb : s.buffer = []) :
    s.write v =
      ({ s with file := overwrite s.file s.writePos (v.take (s.file.length-s.writePos)),
                writePos := s.file.length } : SimpleFileMapper α).writeEnd s.file.length
        (v.drop (s.file.length-s.writePos)) := by
  have hk : min v.length (s.file.length-s.writePos) = s.file.length-s.writePos := by omega
  have hne : (v.drop (s.file.length-s.writePos)).isEmpty = false := by
    simp [List.isEmpty_iff]; omega
  simp only [write, if_pos hw, writeSpace]
  rw [if_pos (by omega), writeRegion_of_lt_file _ _ hw, hk]
  simp only [Bind.bind, Except.bind, hne, Bool.false_eq_true, if_false]
  rw [writeBuffered_of_not _ _ (by simp [hb])]
  congr 2; omega

/-! Every other write stops on a failed `assert` or a negative `memcpy`. -/

theorem write_nil_of_lt (hw : s.writePos < s.file.length) :
    s.write [] = .error .writeAmountPositive := by
  simp only [write, if_pos hw, writeSpace, List.length_nil]
  rw [if_neg (by omega)]

theorem write_spill_nonempty (hw : s.writePos < s.file.length)
    (hfit : s.file.length < s.writePos+v.length) (hb : s.buffer ≠ []) :
    ∃ e, s.write v = .error e := by
  have hk : min v.length (s.file.length-s.writePos) = s.file.length-s.writePos := by omega
  have hne : (v.drop (s.file.length-s.writePos)).isEmpty = false := by
    simp [List.isEmpty_iff]; omega
  have hB : 0 < s.buffer.length := List.length_pos.mpr hb
  simp only [write, if_pos hw, writeSpace]
  rw [if_pos (by omega), writeRegion_of_lt_file _ _ hw, hk]
  simp only [Bind.bind, Except.bind, hne, Bool.false_eq_true, if_false]
  have hlen : s.writePos+(v.take (s.file.length-s.writePos)).length ≤ s.file.length := by
    simp; omega
  by_cases hl : s.file.length < s.buffer.length
  · exact ⟨_, writeBuffered_of_lt _ _ (by simp; omega) (by simp [length_overwrite hlen]; omega)
      (by simp; omega)⟩
  · rw [writeBuffered_of_not _ _ (by simp; omega), writeEnd_of_ne _ _ (by simp; omega)]
    exact ⟨_, rfl⟩

theorem write_in_buffer (h1 : s.file.length ≤ s.writePos) (h2 : s.writePos < s.size) :
    ∃ e, s.write v = .error e := by
  simp only [write, if_neg (Nat.not_lt.mpr h1)]
  by_cases hl : s.writePos < s.buffer.length
  · exact ⟨_, writeBuffered_of_lt s v h1 h1 hl⟩
  · unfold size at h2
    exact ⟨_, by rw [writeBuffered_of_not _ _ hl, writeEnd_of_ne _ _ (by omega)]⟩

theorem write_past_end (h : s.size < s.writePos) : ∃ e, s.write v = .error e := by
  unfold size at h
  simp only [write, if_neg (show ¬ s.writePos < s.file.length by omega)]
  exact ⟨_, by rw [writeBuffered_of_not _ _ (by omega), writeEnd_of_ne _ _ (by omega)]⟩

theorem write_ok_iff : (∃ r, s.write v = .ok r) ↔ s.writePos = s.size ∨
    (s.writePos < s.file.length ∧ 0 < v.length ∧
      (s.writePos+v.length ≤ s.file.length ∨ s.buffer = [])) := by
  constructor
  · rintro ⟨r, hr⟩
    have stop : ∀ e, s.write v ≠ .error e := fun e he => by rw [hr] at he; cases he
    rcases Nat.lt_or_ge s.writePos s.file.length with hw | hw
    · right
      refine ⟨hw, ?_, ?_⟩
      · cases v with
        | nil => exact absurd (write_nil_of_lt s hw) (stop _)
        | cons => simp
      · by_cases hfit : s.writePos+v.length ≤ s.file.length
        · exact .inl hfit
        · by_cases hb : s.buffer = []
          · exact .inr hb
          · obtain ⟨e, he⟩ := write_spill_nonempty s v hw (by omega) hb
            exact absurd he (stop e)
    · left
      rcases Nat.lt_trichotomy s.writePos s.size with hs | hs | hs
      · obtain ⟨e, he⟩ := write_in_buffer s v hw hs; exact absurd he (stop e)
      · exact hs
      · obtain ⟨e, he⟩ := write_past_end s v hs; exact absurd he (stop e)
  · rintro (h | ⟨hw, hv, hfit | hb⟩)
    · exact ⟨_, write_of_writePos_eq_size s v h⟩
    · exact ⟨_, write_of_fits s v hw hv hfit⟩
    · by_cases hfit : s.writePos+v.length ≤ s.file.length
      · exact ⟨_, write_of_fits s v hw hv hfit⟩
      · rw [write_of_spill s v hw (by omega) hb, writeEnd_of_eq _ _ (by simp [hb])]
        exact ⟨_, rfl⟩

/-- What a completed write does to the logical contents: the cells `[writePos, writePos +
v.length)` become `v`, past the old end if need be, and the cursor moves past them. The
mapping keeps its length unless the write flushed the buffer. -/
theorem write_spec {full : Bool} {s' : SimpleFileMapper α} (h : s.write v = .ok (full, s')) :
    s'.contents = overwrite s.contents s.writePos v ∧ s'.writePos = s.writePos+v.length ∧
      s'.maxBufferSize = s.maxBufferSize ∧
      (s'.file.length = s.file.length ∨ s'.buffer = []) := by
  rcases (write_ok_iff s v).mp ⟨_, h⟩ with hs | ⟨hw, hv, hor⟩
  · rw [write_of_writePos_eq_size s v hs] at h
    have ho : overwrite s.contents s.writePos v = s.file ++ (s.buffer ++ v) := by
      rw [hs, ← length_contents, overwrite_length, contents, List.append_assoc]
    simp only [Except.ok.injEq, Prod.mk.injEq] at h
    rw [← h.2, ho]
    split <;> simp [contents, hs]
  by_cases hfit : s.writePos+v.length ≤ s.file.length
  · rw [write_of_fits s v hw hv hfit] at h
    simp only [Except.ok.injEq, Prod.mk.injEq] at h
    rw [← h.2]
    exact ⟨(overwrite_append_left hfit).symm, rfl, rfl, .inl (length_overwrite hfit)⟩
  have hb := hor.resolve_left hfit
  rw [write_of_spill s v hw (by omega) hb, writeEnd_of_eq _ _ (by simp [hb])] at h
  have ho : overwrite s.file s.writePos (v.take (s.file.length-s.writePos)) =
      s.file.take s.writePos ++ v.take (s.file.length-s.writePos) :=
    overwrite_of_le (by simp; omega)
  have hc : overwrite s.contents s.writePos v = s.file.take s.writePos ++ v := by
    simp only [contents, hb, List.append_nil]; exact overwrite_of_le (by omega)
  simp only [Except.ok.injEq, Prod.mk.injEq] at h
  rw [← h.2, hc]
  split <;> simp [contents, hb, ho] <;> omega

theorem size_write {full : Bool} {s' : SimpleFileMapper α} (h : s.write v = .ok (full, s'))
    (hw : s.writePos ≤ s.size) : s'.size = max s.size (s.writePos+v.length) := by
  rw [← length_contents, (write_spec s v h).1]
  unfold overwrite
  simp only [List.length_append, List.length_take, List.length_drop, length_contents]
  omega

theorem write_at_end (h : s.writePos = s.size) : ∃ full s', s.write v = .ok (full, s') ∧
    s'.contents = s.contents ++ v ∧ s'.writePos = s'.size ∧ s'.maxBufferSize = s.maxBufferSize ∧
    (s'.file.length = s.file.length ∨ s'.buffer = []) := by
  obtain ⟨⟨full, s'⟩, hs⟩ := (s.write_ok_iff v).mpr (.inl h)
  obtain ⟨hc, hp, hmax, hfb⟩ := s.write_spec v hs
  have hc' : s'.contents = s.contents ++ v := by
    rw [hc, h, ← length_contents, overwrite_length]
  refine ⟨full, s', hs, hc', ?_, hmax, hfb⟩
  rw [← length_contents, hc', hp, h, List.length_append, length_contents]

end SimpleFileMapper

/-- A cursor sought back into a nonempty buffer, and a mapped overwrite that runs on into
a nonempty buffer, both stop `write`: the first on a negative `memcpy`, the second on
`assert(writePos == fileEnd + buffer.size())`. -/
theorem write_stops_at_buffer :
    (SimpleFileMapper.ofFile ([] : List UInt8)).run [.write [1, 2], .seek 0, .write [3]] =
        .error .negativeCopy ∧
      (SimpleFileMapper.ofFile ([0] : List UInt8)).run [.write [1], .seek 0, .write [5, 6]] =
        .error .writePosAtEnd := ⟨rfl, rfl⟩

end BlockSci
