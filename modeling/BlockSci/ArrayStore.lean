import BlockSci.FixedSizeFileMapper

/-! Laws of the array store: records appended across any placement of flushes read back
bitwise, and `findAll` is exact below `2^32` records and never ends from there on. -/
namespace BlockSci
namespace FixedSizeFileMapper
variable {α : Type} {S : Nat}

theorem take_drop_append_left {l r : List α} {pos n : Nat} (h : pos+n ≤ l.length) :
    ((l ++ r).drop pos).take n = (l.drop pos).take n := by
  simp [List.drop_append_eq_append_drop, List.take_append_eq_append_take,
    show n-(l.length-pos) = 0 by omega]

theorem take_drop_flatten {vs : List (List α)} (hvs : ∀ v ∈ vs, v.length = S) :
    ∀ j (hj : j < vs.length), ((vs.flatten).drop (j*S)).take S = vs[j] := by
  induction vs with
  | nil => intro j hj; simp at hj
  | cons v vs ih =>
    have hv : v.length = S := hvs v (by simp)
    intro j hj
    cases j with
    | zero => simp [← hv]
    | succ j =>
      have := ih (fun w hw => hvs w (by simp [hw])) j (by simpa using hj)
      have e : (j+1)*S = v.length+j*S := by rw [Nat.succ_mul, hv, Nat.add_comm]
      rw [List.flatten_cons, e, List.drop_append]
      simpa using this

theorem run_appends [Zero α] (m : FixedSizeFileMapper α S)
    (hw : m.dataFile.writePos = m.dataFile.size) (ops : List (Op α S))
    (happ : ∀ op ∈ ops, op.Appends) :
    ∃ m', m.run ops = .ok m' ∧
      m'.dataFile.contents = m.dataFile.contents ++ (ops.filterMap Op.written).flatten ∧
      m'.dataFile.writePos = m'.dataFile.size := by
  induction ops generalizing m with
  | nil => exact ⟨m, rfl, by simp, hw⟩
  | cons op ops ih =>
    have hnext : ∃ m₁, m.step op = .ok m₁ ∧
        m₁.dataFile.contents = m.dataFile.contents ++ (op.written.getD []) ∧
        m₁.dataFile.writePos = m₁.dataFile.size := by
      have hop := happ op (by simp)
      cases op with
      | write t ht =>
        obtain ⟨⟨full, d⟩, hd⟩ := (m.dataFile.write_ok_iff t).mpr (.inl hw)
        obtain ⟨m₁, hm₁, rfl⟩ := @write_of_dataFile _ _ m t ht _ _ hd
        obtain ⟨hc, hp, -⟩ := m.dataFile.write_spec t hd
        refine ⟨m₁, by simp [step, hm₁, Except.map], ?_, ?_⟩
        · rw [hc, hw, ← SimpleFileMapper.length_contents, overwrite_length]; rfl
        · rw [← SimpleFileMapper.length_contents, hc, hp, hw, ← SimpleFileMapper.length_contents,
            overwrite_length, List.length_append]
      | clearBuffer => exact ⟨_, rfl, by simp [Op.written], by simpa using hw⟩
      | reload => exact ⟨_, rfl, by simp [Op.written], by simpa using hw⟩
      | _ => exact absurd hop id
    obtain ⟨m₁, h₁, hc₁, hw₁⟩ := hnext
    obtain ⟨m', h', hc', hw'⟩ := ih m₁ hw₁ (fun op h => happ op (by simp [h]))
    refine ⟨m', by simp [run, h₁, Bind.bind, Except.bind, h'], ?_, hw'⟩
    rw [hc', hc₁]
    cases op <;> simp [Op.written]

theorem length_written {ops : List (Op α S)} : ∀ v ∈ ops.filterMap Op.written, v.length = S := by
  intro v hv
  obtain ⟨op, -, hop⟩ := List.mem_filterMap.mp hv
  cases op with
  | write t ht => simp only [Op.written, Option.some.injEq] at hop; rw [← hop, ht]
  | _ => simp [Op.written] at hop

theorem length_flatten_of_forall {vs : List (List α)} (hvs : ∀ v ∈ vs, v.length = S) :
    vs.flatten.length = vs.length*S := by
  induction vs with
  | nil => simp
  | cons v vs ih =>
    simp [hvs v (by simp), ih (fun w hw => hvs w (by simp [hw])), Nat.succ_mul, Nat.add_comm]

/-- Records appended after opening a file whose size is a multiple of `sizeof(T)`, under any
buffer threshold, with any flushes and reloads among them and any threshold flushes they
trigger, read back bitwise through `operator[]`, each from one region; the records of the file
are unchanged, and `len() * sizeof(T)` is the mapped size plus the buffer. -/
theorem run_round_trip [Zero α] (hS : 0 < S) (file : List α) (hf : S ∣ file.length)
    (maxBufferSize : Nat) (ops : List (Op α S)) (happ : ∀ op ∈ ops, op.Appends)
    (hfit : file.length+(ops.filterMap Op.written).length*S ≤ InvalidFileIndex) :
    ∃ m, (ofFile file hf maxBufferSize).run ops = .ok m ∧
      m.size = file.length/S+(ops.filterMap Op.written).length ∧
      m.size*S = m.dataFile.file.length+m.dataFile.buffer.length ∧
      (∀ i < file.length/S, m.deref i = .ok ((file.drop (i*S)).take S)) ∧
      ∀ j (hj : j < (ops.filterMap Op.written).length),
        m.deref (file.length/S+j) = .ok (ops.filterMap Op.written)[j] := by
  obtain ⟨m, hrun, hc, -⟩ := run_appends (ofFile file hf maxBufferSize)
    (by simp [ofFile, SimpleFileMapper.ofFile, SimpleFileMapper.size]) ops happ
  have hc' : m.dataFile.contents = file ++ (ops.filterMap Op.written).flatten := by
    simpa [ofFile, SimpleFileMapper.ofFile, SimpleFileMapper.contents] using hc
  have hlen := length_flatten_of_forall (@length_written _ _ ops)
  have hsz : m.dataFile.size = file.length+(ops.filterMap Op.written).length*S := by
    rw [← SimpleFileMapper.length_contents, hc', List.length_append, hlen]
  have hsize : m.size = file.length/S+(ops.filterMap Op.written).length := by
    simp only [size, hsz, Nat.add_mul_div_right _ _ hS]
  have hdiv := Nat.div_mul_cancel hf
  refine ⟨m, hrun, hsize, ?_, ?_, ?_⟩
  · rw [hsize, Nat.add_mul, hdiv, ← hsz]; rfl
  · intro i hi
    rw [m.deref_of_lt hS (by omega) (by omega), record, hc']
    have := (Nat.le_div_iff_mul_le hS).mp hi
    rw [take_drop_append_left (by rw [Nat.succ_mul] at this; omega)]
  · intro j hj
    rw [m.deref_of_lt hS (by omega) (by omega), record, hc', Nat.add_mul, hdiv, List.drop_append,
      take_drop_flatten length_written j hj]

theorem run_round_trip_two_records :
    ∃ m, (ofFile ([5, 0, 0, 0] : List UInt8) (by decide) 4).run
        [.write [7, 0, 0, 0] rfl, .clearBuffer, .write [11, 0, 0, 0] rfl, .write [13, 0, 0, 0] rfl] = .ok m ∧
      m.size = 4/4+3 ∧ m.size*4 = m.dataFile.file.length+m.dataFile.buffer.length ∧
      (∀ i < 4/4, m.deref i = .ok ((([5, 0, 0, 0] : List UInt8).drop (i*4)).take 4)) ∧
      ∀ j (hj : j < 3), m.deref (4/4+j) = .ok [[7, 0, 0, 0], [11, 0, 0, 0], [13, 0, 0, 0]][j] :=
  run_round_trip (by decide) [5, 0, 0, 0] _ 4 _ (by simp [Op.Appends]) (by decide)

/-! `findAll` counts with a `uint32_t`. -/

theorem findAllLoop_of_le (hS : 0 < S) (m : FixedSizeFileMapper α S)
    (hsz : m.dataFile.size ≤ InvalidFileIndex) (test : List α → Bool) (hn : m.size < 2^32) :
    ∀ fuel index acc, index ≤ m.size → m.size-index < fuel →
      m.findAllLoop test m.size fuel index acc =
        some (.ok (acc ++ (List.range' index (m.size-index)).filter fun i => test (m.record i))) := by
  intro fuel
  induction fuel with
  | zero => intro index acc _ h; omega
  | succ fuel ih =>
    intro index acc hle hfuel
    by_cases hi : index < m.size
    · have hrange : List.range' index (m.size-index) =
          index :: List.range' (index+1) (m.size-(index+1)) := by
        rw [show m.size-index = (m.size-(index+1))+1 by omega, List.range'_succ]
      simp only [findAllLoop, if_pos hi, m.deref_of_lt hS hi hsz]
      rw [Nat.mod_eq_of_lt (by omega), ih _ _ (by omega) (by omega), hrange]
      by_cases ht : test (m.record index) <;> simp [ht]
    · rw [findAllLoop, if_neg hi, show m.size-index = 0 by omega]; simp

theorem findAllLoop_of_two_pow_32_le (hS : 0 < S) (m : FixedSizeFileMapper α S)
    (hsz : m.dataFile.size ≤ InvalidFileIndex) (test : List α → Bool) (hn : 2^32 ≤ m.size) :
    ∀ fuel index acc, index < 2^32 → m.findAllLoop test m.size fuel index acc = none := by
  intro fuel
  induction fuel with
  | zero => intro _ _ _; rfl
  | succ fuel ih =>
    intro index acc hi
    have hlt : index < m.size := by omega
    simp only [findAllLoop, if_pos hlt, m.deref_of_lt hS hlt hsz]
    exact ih _ _ (Nat.mod_lt _ (Nat.two_pow_pos 32))

/-- Below `2^32` records, `findAll` ends within `size() + 1` rounds with the increasing
list of exactly the indices whose record, read through `operator[]`, passes `test`. From
`2^32` records on, the `uint32_t` counter wraps before it reaches `size()`, and the loop
never ends. -/
theorem findAll_exact_below_two_pow_32 (hS : 0 < S) (m : FixedSizeFileMapper α S)
    (hsz : m.dataFile.size ≤ InvalidFileIndex) (test : List α → Bool) :
    (m.size < 2^32 → ∀ fuel, m.size < fuel →
      m.findAll test fuel = some (.ok ((List.range m.size).filter fun i => test (m.record i)))) ∧
    (2^32 ≤ m.size → ∀ fuel, m.findAll test fuel = none) := by
  refine ⟨fun hn fuel hfuel => ?_, fun hn fuel => m.findAllLoop_of_two_pow_32_le hS hsz test hn _ _ _
    (Nat.two_pow_pos 32)⟩
  rw [findAll, m.findAllLoop_of_le hS hsz test hn fuel 0 [] (Nat.zero_le _) (by omega),
    List.range_eq_range']; rfl

theorem findAll_three_records :
    0 < 1 ∧ (ofFile ([3, 5, 3] : List UInt8) (Nat.one_dvd _)).dataFile.size ≤ InvalidFileIndex ∧
      (ofFile ([3, 5, 3] : List UInt8) (Nat.one_dvd _)).findAll (· == [3]) 4 = some (.ok [0, 2]) :=
  ⟨Nat.one_pos, by decide, by
    rw [(findAll_exact_below_two_pow_32 Nat.one_pos _ (by decide) _).1 (by decide) 4 (by decide)]
    rfl⟩

theorem findAll_never_ends_at_two_pow_32 :
    (ofFile (List.replicate (2^32) (0 : UInt8)) (Nat.one_dvd _)).findAll (fun _ => true) =
      fun _ => none := by
  have hsize : (ofFile (List.replicate (2^32) (0 : UInt8)) (Nat.one_dvd _)).size = 2^32 := by
    rw [size_eq, dataFile_ofFile, SimpleFileMapper.size_ofFile, List.length_replicate, Nat.div_one]
  funext fuel
  refine findAllLoop_of_two_pow_32_le Nat.one_pos _ ?_ _ hsize.ge _ _ _ (Nat.two_pow_pos 32)
  rw [dataFile_ofFile, SimpleFileMapper.size_ofFile, List.length_replicate]; decide

end FixedSizeFileMapper
end BlockSci
