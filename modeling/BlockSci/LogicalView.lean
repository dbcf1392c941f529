import BlockSci.IndexedFileMapper

/-! The logical contents of an indexed store, and what each call does to them while both
write cursors are at the end of their files. -/
namespace BlockSci
namespace IndexedFileMapper
variable {T : Streams}

/-- The logical contents of the index file and of the data file. -/
structure View where
  index : List Nat
  data : List UInt8

def view (m : IndexedFileMapper T) : View := ⟨m.indexFile.dataFile.contents, m.dataFile.contents⟩

/-- Both write cursors at the end of their files. -/
def AtEnd (m : IndexedFileMapper T) : Prop :=
  m.dataFile.writePos = m.dataFile.size ∧ m.indexFile.dataFile.writePos = m.indexFile.dataFile.size

def DataKept (m m' : IndexedFileMapper T) : Prop :=
  m'.dataFile.file.length = m.dataFile.file.length ∨ m'.dataFile.buffer = []

theorem mul_add_inj {N i i' k j : Nat} (hi : i < N) (hi' : i' < N) :
    k*N+i = j*N+i' ↔ k = j ∧ i = i' := by
  constructor
  · intro h
    have hN : 0 < N := by omega
    have hdiv := congrArg (·/N) h
    have hmod := congrArg (·%N) h
    simp only [Nat.add_comm _ i, Nat.add_comm _ i', Nat.add_mul_div_right _ _ hN,
      Nat.add_mul_mod_self_right, Nat.div_eq_of_lt hi, Nat.div_eq_of_lt hi', Nat.mod_eq_of_lt hi,
      Nat.mod_eq_of_lt hi'] at hdiv hmod
    omega
  · rintro ⟨rfl, rfl⟩; rfl

theorem mul_add_lt_mul {N i k c : Nat} (hi : i < N) (hk : k < c) : k*N+i < c*N :=
  calc k*N+i < (k+1)*N := by rw [Nat.succ_mul]; omega
    _ ≤ c*N := Nat.mul_le_mul_right N hk

namespace View

def count (T : Streams) (v : View) : Nat := v.index.length/T.indexCount

def cell (T : Streams) (v : View) (k i : Nat) : Nat := v.index.getD (k*T.indexCount+i) 0

def push (T : Streams) (v : View) (b : List UInt8) : View :=
  ⟨v.index ++ v.data.length :: List.replicate T.tail.length InvalidFileIndex, v.data ++ b⟩

def attach (T : Streams) (v : View) (i k : Nat) (b : List UInt8) : View :=
  ⟨v.index.set (k*T.indexCount+i) v.data.length, v.data ++ b⟩

def cut (T : Streams) (v : View) (k : Nat) : View :=
  ⟨v.index.take (k*T.indexCount), v.data.take (v.cell T k 0)⟩

/-- What each call does to the logical contents with both cursors at the end; `none` for an
attachment the code stops on and for the calls that move a cursor. -/
def step (v : View) : Op T → Option View
  | .write t => some (v.push T t.bytes)
  | .writeAt i k t =>
    if 0 < i ∧ i < T.indexCount ∧ k < v.count T then some (v.attach T i k t.bytes) else none
  | .clearBuffer | .reload => some v
  | .truncate k => some (if k < v.count T then v.cut T k else v)
  | .seekEnd | .seek .. | .grow .. => none

def run (v : View) : List (Op T) → Option View
  | [] => some v
  | op :: ops => v.step op >>= fun v' => run v' ops

theorem run_append (v : View) (ops ops' : List (Op T)) :
    v.run (ops ++ ops') = v.run ops >>= fun v' => v'.run ops' := by
  induction ops generalizing v with
  | nil => rfl
  | cons op ops ih =>
    simp only [List.cons_append, run]
    cases v.step op with
    | none => rfl
    | some v₁ => exact ih v₁

def Within (v : View) : Prop := v.index.length ≤ InvalidFileIndex ∧ v.data.length ≤ InvalidFileIndex

instance (v : View) : Decidable v.Within := inferInstanceAs (Decidable (_ ∧ _))

def fits (v : View) : List (Op T) → Bool
  | [] => decide v.Within
  | op :: ops => decide v.Within && match v.step op with
    | some v' => fits v' ops
    | none => true

variable {v : View} {b : List UInt8}

theorem fits_nil : v.fits ([] : List (Op T)) = true ↔ v.Within := by simp [fits]

theorem fits_cons {op : Op T} {ops : List (Op T)} :
    v.fits (op :: ops) = true ↔ v.Within ∧ ∀ v', v.step op = some v' → v'.fits ops = true := by
  simp only [fits, Bool.and_eq_true, decide_eq_true_eq]
  cases v.step op <;> simp

theorem within_run {ops : List (Op T)} {v' : View} (h : v.run ops = some v')
    (hf : v.fits ops = true) : v'.Within := by
  induction ops generalizing v with
  | nil => cases h; exact fits_nil.mp hf
  | cons op ops ih =>
    simp only [View.run, Option.bind_eq_bind, Option.bind_eq_some] at h
    obtain ⟨v₁, h₁, h₂⟩ := h
    exact ih h₂ ((fits_cons.mp hf).2 v₁ h₁)

@[simp] theorem data_push : (v.push T b).data = v.data ++ b := rfl
@[simp] theorem data_attach (i k : Nat) : (v.attach T i k b).data = v.data ++ b := rfl
@[simp] theorem data_cut (k : Nat) : (v.cut T k).data = v.data.take (v.cell T k 0) := rfl

theorem length_index_push : (v.push T b).index.length = v.index.length+T.indexCount := by
  simp [push, Streams.indexCount]

theorem count_push : (v.push T b).count T = v.count T+1 := by
  simp only [count, length_index_push, Nat.add_div_right _ T.indexCount_pos]

theorem count_attach (i k : Nat) : (v.attach T i k b).count T = v.count T := by
  simp [count, attach]

theorem count_cut {k : Nat} (hk : k ≤ v.count T) : (v.cut T k).count T = k := by
  have hkN : k*T.indexCount ≤ v.index.length := (Nat.le_div_iff_mul_le T.indexCount_pos).mp hk
  simp [count, cut, Nat.min_eq_left hkN, Nat.mul_div_cancel _ T.indexCount_pos]

theorem cell_push (hd : T.indexCount ∣ v.index.length) {k i : Nat} (hi : i < T.indexCount) :
    (v.push T b).cell T k i = if k < v.count T then v.cell T k i
      else if k = v.count T then (if i = 0 then v.data.length else InvalidFileIndex) else 0 := by
  have hlen : v.index.length = v.count T*T.indexCount := (Nat.div_mul_cancel hd).symm
  simp only [cell, push]
  split_ifs with hk hk' hi0
  · exact List.getD_append _ _ _ _ (by rw [hlen]; exact mul_add_lt_mul hi hk)
  · subst hk' hi0
    rw [List.getD_append_right _ _ _ _ (by omega), hlen, Nat.add_zero, Nat.sub_self]; rfl
  · subst hk'
    rw [List.getD_append_right _ _ _ _ (by omega), hlen, Nat.add_sub_cancel_left]
    obtain ⟨i', rfl⟩ := Nat.exists_eq_succ_of_ne_zero hi0
    simp [Streams.indexCount] at hi ⊢; simp [List.getElem?_replicate, hi]
  · have hlt := Nat.mul_le_mul_right T.indexCount (show v.count T+1 ≤ k by omega)
    rw [Nat.succ_mul] at hlt
    have hN : T.tail.length+1 = T.indexCount := rfl
    apply List.getD_eq_default
    simp only [List.length_append, List.length_cons, List.length_replicate]
    omega

theorem cell_attach {i k : Nat} (hi : i < T.indexCount) (hk : k < v.count T) {j i' : Nat}
    (hi' : i' < T.indexCount) :
    (v.attach T i k b).cell T j i' = if j = k ∧ i' = i then v.data.length else v.cell T j i' := by
  have hpos : k*T.indexCount+i < v.index.length :=
    Nat.lt_of_lt_of_le (mul_add_lt_mul hi hk) (Nat.div_mul_le_self _ _)
  simp only [cell, attach, List.getD_eq_getElem?_getD, List.getElem?_set, mul_add_inj hi hi', hpos]
  by_cases h : k = j ∧ i = i' <;> simp only [h, ite_true, ite_false, Option.getD_some]
  · obtain ⟨rfl, rfl⟩ := h; simp
  · simp only [show ¬(j = k ∧ i' = i) by rintro ⟨rfl, rfl⟩; exact h ⟨rfl, rfl⟩, ite_false]

theorem cell_cut {k j i : Nat} (hi : i < T.indexCount) :
    (v.cut T k).cell T j i = if j < k then v.cell T j i else 0 := by
  simp only [cell, cut]
  split_ifs with hj
  · simp [List.getD_eq_getElem?_getD, List.getElem?_take, mul_add_lt_mul hi hj]
  · exact List.getD_eq_default _ _ (by
      have := Nat.mul_le_mul_right T.indexCount (Nat.le_of_not_lt hj)
      simp only [List.length_take]; omega)

/-- Whole records, stream-0 offsets increasing along the index and within the data. -/
structure Wf (T : Streams) (v : View) : Prop where
  dvd : T.indexCount ∣ v.index.length
  mono : ∀ j k, j ≤ k → k < v.count T → v.cell T j 0 ≤ v.cell T k 0
  le : ∀ k < v.count T, v.cell T k 0 ≤ v.data.length

theorem Wf.push (hw : v.Wf T) : (v.push T b).Wf T := by
  have hc := fun k => cell_push (b := b) hw.dvd (k := k) T.indexCount_pos
  refine ⟨by rw [length_index_push]; exact Nat.dvd_add hw.dvd (Nat.dvd_refl _),
    fun j k hjk hk => ?_, fun k hk => ?_⟩ <;> rw [count_push] at hk
  · rw [hc j, hc k]
    have := hw.mono j k hjk
    have := hw.le j
    split_ifs <;> omega
  · rw [hc k, data_push, List.length_append]
    have := hw.le k
    split_ifs <;> omega

theorem Wf.attach (hw : v.Wf T) {i k : Nat} (hi : 0 < i) (hiN : i < T.indexCount)
    (hk : k < v.count T) : (v.attach T i k b).Wf T := by
  have hc : ∀ j, (v.attach T i k b).cell T j 0 = v.cell T j 0 := fun j => by
    rw [cell_attach hiN hk T.indexCount_pos, if_neg (by omega)]
  refine ⟨by simpa [View.attach] using hw.dvd, fun j k' hjk hk' => ?_, fun k' hk' => ?_⟩ <;>
    rw [count_attach] at hk'
  · rw [hc, hc]; exact hw.mono j k' hjk hk'
  · rw [hc, data_attach, List.length_append]; exact Nat.le_add_right_of_le (hw.le k' hk')

theorem Wf.cut (hw : v.Wf T) {k : Nat} (hk : k < v.count T) : (v.cut T k).Wf T := by
  have hkN : k*T.indexCount ≤ v.index.length :=
    (Nat.le_div_iff_mul_le T.indexCount_pos).mp hk.le
  have hc := fun j => cell_cut (v := v) (k := k) (j := j) T.indexCount_pos
  refine ⟨by simp [View.cut, Nat.min_eq_left hkN], fun j k' hjk hk' => ?_, fun k' hk' => ?_⟩ <;>
    rw [count_cut hk.le] at hk'
  · rw [hc, hc, if_pos hk', if_pos (by omega)]; exact hw.mono j k' hjk (by omega)
  · rw [hc, if_pos hk', data_cut, List.length_take, Nat.min_eq_left (hw.le k hk)]
    exact hw.mono k' k hk'.le hk

theorem Wf.step (hw : v.Wf T) {op : Op T} {v' : View} (h : v.step op = some v') : v'.Wf T := by
  cases op with
  | write t => cases h; exact hw.push
  | writeAt i k t =>
    simp only [View.step] at h
    split at h
    · cases h; rename_i hik; exact hw.attach hik.1 hik.2.1 hik.2.2
    · cases h
  | clearBuffer | reload => cases h; exact hw
  | truncate k =>
    cases h
    split
    · exact hw.cut ‹_›
    · exact hw
  | seekEnd | seek | grow => cases h

theorem Wf.run (hw : v.Wf T) {ops : List (Op T)} {v' : View} (h : v.run ops = some v') :
    v'.Wf T := by
  induction ops generalizing v with
  | nil => cases h; exact hw
  | cons op ops ih =>
    simp only [View.run, Option.bind_eq_bind, Option.bind_eq_some] at h
    obtain ⟨v₁, h₁, h₂⟩ := h
    exact ih (hw.step h₁) h₂

end View

def Op.bytes : Op T → List UInt8
  | .write t => t.bytes
  | .writeAt _ _ t => t.bytes
  | _ => []

theorem size_eq_count (m : IndexedFileMapper T) : m.size = m.view.count T := by
  simp [size, FixedSizeFileMapper.size_eq, view, View.count]

theorem length_index (m : IndexedFileMapper T) :
    m.view.index.length = m.indexFile.dataFile.size := by simp [view]

theorem length_data (m : IndexedFileMapper T) : m.view.data.length = m.dataFile.size := by
  simp [view]

theorem size_index_eq (m : IndexedFileMapper T) :
    m.indexFile.dataFile.size = m.size*T.indexCount :=
  (Nat.div_mul_cancel (Nat.dvd_add m.indexFile.file_dvd m.indexFile.buffer_dvd)).symm

theorem getOffsets_eq (m : IndexedFileMapper T) {k : Nat} (hk : k < m.size)
    (hsz : m.indexFile.dataFile.size ≤ InvalidFileIndex) :
    m.getOffsets k = .ok (m.indexFile.record k) := m.indexFile.deref_of_lt T.indexCount_pos hk hsz

theorem getD_record (m : IndexedFileMapper T) {k i : Nat} (hi : i < T.indexCount) :
    (m.indexFile.record k).getD i 0 = m.view.cell T k i := by
  simp [FixedSizeFileMapper.record, View.cell, view, List.getD_eq_getElem?_getD,
    List.getElem?_take, hi]

theorem length_record (m : IndexedFileMapper T) {k : Nat} (hk : k < m.size) :
    (m.indexFile.record k).length = T.indexCount := by
  have := m.indexFile.mul_add_le_size T.indexCount_pos hk
  simp [FixedSizeFileMapper.record]; omega

theorem record_eq_map (m : IndexedFileMapper T) {k : Nat} (hk : k < m.size) :
    m.indexFile.record k = (List.range T.indexCount).map (m.view.cell T k) := by
  apply List.ext_getElem
  · rw [m.length_record hk, List.length_map, List.length_range]
  · intro i h₁ h₂
    have hi : i < T.indexCount := by simpa using h₂
    rw [List.getElem_map, List.getElem_range, ← m.getD_record hi, List.getD_eq_getElem?_getD,
      List.getElem?_eq_getElem h₁]
    rfl

theorem mapM_map_congr {α β γ ε : Type} {f : α → β} {g : β → Except ε γ} {h : α → Except ε γ} :
    ∀ {l : List α}, (∀ x ∈ l, g (f x) = h x) → (l.map f).mapM g = l.mapM h
  | [], _ => rfl
  | x :: l, hx => by
    rw [List.map_cons, List.mapM_cons, List.mapM_cons, hx x (List.mem_cons_self _ _),
      mapM_map_congr fun y hy => hx y (List.mem_cons_of_mem _ hy)]

theorem mapM_except_ok {α β ε : Type} {f : α → Except ε β} :
    ∀ {l : List α}, (∀ x ∈ l, ∃ y, f x = .ok y) →
      ∃ ys, l.mapM f = .ok ys ∧ ∀ (i : Nat) x, l[i]? = some x → ∃ y, ys[i]? = some y ∧ f x = .ok y
  | [], _ => ⟨[], rfl, by simp⟩
  | x :: l, h => by
    obtain ⟨y, hy⟩ := h x (List.mem_cons_self _ _)
    obtain ⟨ys, hys, hget⟩ := mapM_except_ok fun x hx => h x (List.mem_cons_of_mem _ hx)
    refine ⟨y :: ys, by rw [List.mapM_cons, hy, hys]; rfl, fun i x' hx' => ?_⟩
    cases i with
    | zero => obtain rfl : x = x' := by simpa using hx'
              exact ⟨y, by simp, hy⟩
    | succ i => simpa using hget i x' (by simpa using hx')

def OffsetOk (m : IndexedFileMapper T) (o : Nat) : Prop := o < m.dataFile.size ∨ o = InvalidFileIndex

theorem getDataAtOffset_ok {m : IndexedFileMapper T} {o : Nat} (h : m.OffsetOk o) :
    ∃ p, m.dataFile.getDataAtOffset o = .ok p := by
  have h' : o < m.dataFile.file.length+m.dataFile.buffer.length ∨ o = InvalidFileIndex := h
  unfold SimpleFileMapper.getDataAtOffset
  rw [if_pos h']
  split_ifs <;> exact ⟨_, rfl⟩

section read
variable (m : IndexedFileMapper T) {k i : Nat} (hk : k < m.size)
  (hsz : m.indexFile.dataFile.size ≤ InvalidFileIndex)
include hk hsz

theorem getOffset_eq (hi : i < T.indexCount) (ho : m.OffsetOk (m.view.cell T k i)) :
    m.getOffset i k = .ok (m.view.cell T k i) := by
  simp only [getOffset, if_pos hi, m.indexFile.deref_of_lt T.indexCount_pos hk hsz, Bind.bind,
    Except.bind, m.getD_record hi]
  exact if_pos ho

theorem getDataAtIndex_eq (hi : i < T.indexCount) (ho : m.OffsetOk (m.view.cell T k i)) :
    m.getDataAtIndex i k = m.dataFile.getDataAtOffset (m.view.cell T k i) := by
  simp only [getDataAtIndex, if_pos hk, m.getOffset_eq hk hsz hi ho, Bind.bind, Except.bind]

theorem getDataAtIndex_of_not_offsetOk (hi : i < T.indexCount)
    (ho : ¬ m.OffsetOk (m.view.cell T k i)) : m.getDataAtIndex i k = .error .offsetInRange := by
  have ho' : ¬ (m.view.cell T k i < m.dataFile.size ∨ m.view.cell T k i = InvalidFileIndex) := ho
  simp only [getDataAtIndex, if_pos hk, getOffset, if_pos hi, m.indexFile.deref_of_lt T.indexCount_pos hk hsz,
    Bind.bind, Except.bind, m.getD_record hi, if_neg ho']

theorem getData_eq (ho : ∀ i < T.indexCount, m.OffsetOk (m.view.cell T k i)) :
    ∃ ps, m.getData k = .ok ps ∧ ∀ i < T.indexCount, ∀ p,
      m.dataFile.getDataAtOffset (m.view.cell T k i) = .ok p → ps[i]? = some p := by
  unfold getData
  rw [if_pos hk]
  split_ifs with h1
  · obtain ⟨p, hp⟩ := getDataAtOffset_ok (ho 0 T.indexCount_pos)
    refine ⟨[p], ?_, fun i hi p' hp' => ?_⟩
    · rw [m.getDataAtIndex_eq hk hsz T.indexCount_pos (ho 0 T.indexCount_pos), hp]; rfl
    · obtain rfl : i = 0 := by omega
      rw [hp] at hp'; cases hp'; rfl
  · have hrec : ∀ i, (m.indexFile.record k)[i]? =
        if i < T.indexCount then some (m.view.cell T k i) else none := fun i => by
      split_ifs with hi
      · rw [← m.getD_record hi, List.getD_eq_getElem?_getD,
          List.getElem?_eq_getElem (by rw [m.length_record hk]; exact hi)]; rfl
      · exact List.getElem?_eq_none (by rw [m.length_record hk]; omega)
    obtain ⟨ps, hps, hget⟩ := mapM_except_ok (f := m.dataFile.getDataAtOffset) fun o ho' => by
      obtain ⟨i, hi⟩ := List.mem_iff_getElem?.mp ho'
      rw [hrec] at hi
      split_ifs at hi with hiN
      cases hi
      exact getDataAtOffset_ok (ho i hiN)
    refine ⟨ps, by rw [getOffsets_eq m hk hsz]; exact hps, fun i hi p hp => ?_⟩
    obtain ⟨y, hy, hfy⟩ := hget i _ (by rw [hrec, if_pos hi])
    rw [hp] at hfy; cases hfy; exact hy
theorem getDataAtIndex_ok {p : Ptr} (h : m.getDataAtIndex i k = .ok p) :
    i < T.indexCount ∧ m.OffsetOk (m.view.cell T k i) ∧
      m.dataFile.getDataAtOffset (m.view.cell T k i) = .ok p := by
  simp only [getDataAtIndex, if_pos hk, getOffset] at h
  split_ifs at h with hi
  · rw [m.indexFile.deref_of_lt T.indexCount_pos hk hsz] at h
    simp only [Bind.bind, Except.bind, m.getD_record hi] at h
    split_ifs at h with ho
    · exact ⟨hi, ho, h⟩
  · cases h

theorem getDataAtIndex_eq_getDataAtOffset (hi : i < T.indexCount) :
    m.getDataAtIndex i k = m.dataFile.getDataAtOffset (m.view.cell T k i) := by
  by_cases ho : m.OffsetOk (m.view.cell T k i)
  · exact m.getDataAtIndex_eq hk hsz hi ho
  · rw [m.getDataAtIndex_of_not_offsetOk hk hsz hi ho]
    unfold SimpleFileMapper.getDataAtOffset
    exact (if_neg ho).symm

theorem getDataAtIndex_ok_iff (hi : i < T.indexCount) :
    (∃ p, m.getDataAtIndex i k = .ok p) ↔ m.OffsetOk (m.view.cell T k i) := by
  refine ⟨fun ⟨p, hp⟩ => (m.getDataAtIndex_ok hk hsz hp).2.1, fun ho => ?_⟩
  rw [m.getDataAtIndex_eq hk hsz hi ho]
  exact getDataAtOffset_ok ho

end read

/-- The overloads of `getData(k)` agree with reading each stream through
`getDataAtIndex<i>(k)`: the single-stream overload's call, and the loop of the others over
`getOffsets(k)`, fail as it does or return its pointers, for every entry. -/
theorem getData_eq_mapM (m : IndexedFileMapper T) (hsz : m.indexFile.dataFile.size ≤ InvalidFileIndex)
    (k : Nat) : m.getData k = (List.range T.indexCount).mapM fun i => m.getDataAtIndex i k := by
  by_cases hk : k < m.size
  · unfold getData
    rw [if_pos hk]
    split_ifs with h1
    · rw [h1, show List.range 1 = [0] from rfl]
      simp only [List.mapM_cons, List.mapM_nil]
      cases m.getDataAtIndex 0 k <;> rfl
    · rw [getOffsets_eq m hk hsz, m.record_eq_map hk]
      exact mapM_map_congr fun i hi =>
        (m.getDataAtIndex_eq_getDataAtOffset hk hsz (List.mem_range.mp hi)).symm
  · have h0 : List.range T.indexCount = 0 :: (List.range T.tail.length).map Nat.succ :=
      List.range_succ_eq_map _
    simp only [getData, if_neg hk, h0, List.mapM_cons, getDataAtIndex]
    rfl

theorem getData_eq_mapM_past_data :
    (ofFiles [7] [0, 5] (by decide) : IndexedFileMapper byteThenWord).indexFile.dataFile.size ≤
        InvalidFileIndex ∧
      ∀ k, (ofFiles [7] [0, 5] (by decide) : IndexedFileMapper byteThenWord).getData k =
        (List.range byteThenWord.indexCount).mapM fun i =>
          (ofFiles [7] [0, 5] (by decide) : IndexedFileMapper byteThenWord).getDataAtIndex i k :=
  ⟨by decide, getData_eq_mapM _ (by decide)⟩

theorem empty_view : (empty : IndexedFileMapper T).view = ⟨[], []⟩ := rfl

theorem empty_atEnd : (empty : IndexedFileMapper T).AtEnd := ⟨rfl, rfl⟩

theorem wf_empty : View.Wf T ⟨[], []⟩ :=
  ⟨Nat.dvd_zero _, fun _ _ _ h => absurd h (by simp [View.count]),
    fun _ h => absurd h (by simp [View.count])⟩

/-! One lemma per call: what it does with both cursors at the end. -/

theorem write_atEnd {m : IndexedFileMapper T} (hm : m.AtEnd) (t : Payload T.head) :
    ∃ m', m.write t = .ok m' ∧ m'.view = m.view.push T t.bytes ∧ m'.AtEnd ∧ DataKept m m' := by
  obtain ⟨hd, hi⟩ := hm
  obtain ⟨_, di, hdi, hci, hpi, -, -⟩ := m.indexFile.dataFile.write_at_end
    (m.dataFile.getWriteOffset :: List.replicate T.tail.length InvalidFileIndex) hi
  obtain ⟨m₁, hm₁, rfl⟩ := @FixedSizeFileMapper.write_of_dataFile _ _ m.indexFile _
    (by simp [Streams.indexCount]) _ _ hdi
  obtain ⟨_, dd, hdd, hcd, hpd, -, hkd⟩ := m.dataFile.write_at_end t.bytes hd
  refine ⟨⟨dd, m₁⟩, ?_, ?_, ⟨hpd, hpi⟩, hkd⟩
  · simp only [write, writeNewImp, Nat.mod_eq_zero_of_dvd t.align_dvd, if_true]
    rw [hm₁]
    simp [Bind.bind, Except.bind, hdd]
  · simp [view, View.push, hci, hcd, SimpleFileMapper.getWriteOffset, hd]

theorem writeAt_atEnd {m : IndexedFileMapper T} (hm : m.AtEnd) {i k : Nat} (hi : 0 < i)
    (hiN : i < T.indexCount) (hk : k < m.size)
    (hsz : m.indexFile.dataFile.size ≤ InvalidFileIndex) (t : Payload (T.nthElement i)) :
    ∃ m', m.writeAt i k t = .ok m' ∧ m'.view = m.view.attach T i k t.bytes ∧
      m'.AtEnd ∧ DataKept m m' := by
  obtain ⟨hd, hi'⟩ := hm
  obtain ⟨p, m₁, hp, hs, hc₁, hw₁, hf₁, hb₁⟩ :=
    m.indexFile.store_at T.indexCount_pos hk hiN hsz m.dataFile.getWriteOffset
  obtain ⟨_, dd, hdd, hcd, hpd, -, hkd⟩ := m.dataFile.write_at_end t.bytes hd
  refine ⟨⟨dd, m₁⟩, ?_, ?_, ⟨hpd, ?_⟩, hkd⟩
  · simp only [writeAt, writeUpdateImp, if_pos (And.intro hi hiN),
      Nat.mod_eq_zero_of_dvd t.align_dvd, if_true]
    simp [Bind.bind, Except.bind, hp, hs, hdd]
  · simp [view, View.attach, hc₁, hcd, SimpleFileMapper.getWriteOffset, hd]
  · simp only [SimpleFileMapper.size] at hi' ⊢; omega

theorem clearBuffer_atEnd {m : IndexedFileMapper T} (hm : m.AtEnd) :
    m.clearBuffer.view = m.view ∧ m.clearBuffer.AtEnd ∧ DataKept m m.clearBuffer :=
  ⟨by simp [view, clearBuffer], by simpa [AtEnd, clearBuffer] using hm, .inr rfl⟩

theorem truncate_atEnd {m : IndexedFileMapper T} (hm : m.AtEnd) (hw : m.view.Wf T) {k : Nat}
    (hk : k < m.size) (hsz : m.indexFile.dataFile.size ≤ InvalidFileIndex) :
    ∃ m', m.truncate k = .ok m' ∧ m'.view = m.view.cut T k ∧ m'.AtEnd ∧ DataKept m m' := by
  obtain ⟨hd, hi⟩ := hm
  have hkN := m.indexFile.mul_add_le_size T.indexCount_pos hk
  have hle := hw.le k (by rw [← size_eq_count]; exact hk)
  rw [length_data] at hle
  have h1 : (m.indexFile.truncate k).dataFile.contents = m.view.index.take (k*T.indexCount) := by
    simp [SimpleFileMapper.contents, view, show k*T.indexCount-m.indexFile.dataFile.size = 0 by omega]
  have h2 : (m.dataFile.truncate (m.view.cell T k 0)).contents =
      m.view.data.take (m.view.cell T k 0) := by
    simp only [SimpleFileMapper.contents, SimpleFileMapper.truncate_file,
      SimpleFileMapper.truncate_buffer, List.append_nil, show m.view.cell T k 0-m.dataFile.size = 0 by omega,
      List.replicate_zero]
    rfl
  refine ⟨⟨m.dataFile.truncate (m.view.cell T k 0), m.indexFile.truncate k⟩,
    by simp only [truncate, if_pos hk, m.getOffsets_eq hk hsz, Bind.bind, Except.bind,
      m.getD_record T.indexCount_pos],
    ?_, ⟨?_, ?_⟩, .inr rfl⟩
  · show View.mk (m.indexFile.truncate k).dataFile.contents
      (m.dataFile.truncate (m.view.cell T k 0)).contents = _
    rw [h1, h2]; rfl
  · simp only [SimpleFileMapper.truncate_writePos, SimpleFileMapper.size_truncate]; omega
  · simp only [FixedSizeFileMapper.dataFile_truncate, SimpleFileMapper.truncate_writePos,
      SimpleFileMapper.size_truncate]
    omega

theorem reload_eq (m : IndexedFileMapper T) : m.reload = m.clearBuffer := rfl

theorem step_atEnd {m : IndexedFileMapper T} (hm : m.AtEnd) (hw : m.view.Wf T) {op : Op T}
    {v' : View} (h : m.view.step op = some v') (hsz : m.indexFile.dataFile.size ≤ InvalidFileIndex) :
    ∃ m', m.step op = .ok m' ∧ m'.view = v' ∧ m'.AtEnd ∧ DataKept m m' := by
  cases op with
  | write t =>
    cases h
    obtain ⟨m', h₁, h₂, h₃, h₄⟩ := write_atEnd hm t
    exact ⟨m', h₁, h₂, h₃, h₄⟩
  | writeAt i k t =>
    simp only [View.step] at h
    split at h
    · cases h
      rename_i hik
      obtain ⟨m', h₁, h₂, h₃, h₄⟩ :=
        writeAt_atEnd hm hik.1 hik.2.1 (by rw [size_eq_count]; exact hik.2.2) hsz t
      exact ⟨m', h₁, h₂, h₃, h₄⟩
    · cases h
  | clearBuffer =>
    cases h
    obtain ⟨h₁, h₂, h₃⟩ := clearBuffer_atEnd hm
    exact ⟨_, rfl, h₁, h₂, h₃⟩
  | reload =>
    cases h
    obtain ⟨h₁, h₂, h₃⟩ := clearBuffer_atEnd hm
    exact ⟨_, by rw [step, reload_eq], h₁, h₂, h₃⟩
  | truncate k =>
    cases h
    split
    · obtain ⟨m', h₁, h₂, h₃, h₄⟩ := truncate_atEnd hm hw (by rw [size_eq_count]; exact ‹_›) hsz
      exact ⟨m', h₁, h₂, h₃, h₄⟩
    · exact ⟨m, by simp [step, truncate, size_eq_count, *], rfl, hm, .inl rfl⟩
  | seekEnd | seek | grow => cases h

theorem run_atEnd {m : IndexedFileMapper T} (hm : m.AtEnd) (hw : m.view.Wf T) {ops : List (Op T)}
    {v' : View} (h : m.view.run ops = some v') (hf : m.view.fits ops = true) :
    ∃ m', m.run ops = .ok m' ∧ m'.view = v' ∧ m'.AtEnd := by
  induction ops generalizing m with
  | nil => cases h; exact ⟨m, rfl, rfl, hm⟩
  | cons op ops ih =>
    simp only [View.run, Option.bind_eq_bind, Option.bind_eq_some] at h
    obtain ⟨v₁, h₁, h₂⟩ := h
    obtain ⟨hwin, hrest⟩ := View.fits_cons.mp hf
    obtain ⟨m₁, hs₁, hv₁, he₁, -⟩ := step_atEnd hm hw h₁ (length_index m ▸ hwin.1)
    subst hv₁
    obtain ⟨m', hs', hv', he'⟩ := ih he₁ (hw.step h₁) h₂ (hrest _ h₁)
    exact ⟨m', by simp [run, hs₁, Bind.bind, Except.bind, hs'], hv', he'⟩

end IndexedFileMapper
end BlockSci
