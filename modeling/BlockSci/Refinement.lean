import BlockSci.LogicalView

/-! The indexed store refines a list of entries, each with a ghost flag that refuses a
truncation cutting a payload attached to an earlier entry. -/
namespace BlockSci
namespace IndexedFileMapper
variable {T : Streams}

/-- An entry of the abstract store: the payload of stream 0, the optional payloads of
streams `1, 2, …`, and the ghost flag. -/
structure Entry (T : Streams) where
  primary : List UInt8
  aux : List (Option (List UInt8))
  length_aux : aux.length = T.tail.length
  stale : Bool

namespace Entry
variable (e : Entry T) (b : List UInt8)

def slot (i : Nat) : Option (List UInt8) := if i = 0 then some e.primary else e.aux.getD (i-1) none

def new : Entry T := ⟨b, List.replicate T.tail.length none, List.length_replicate _ _, false⟩

def attach (i : Nat) : Entry T :=
  { e with aux := e.aux.set (i-1) (some b), length_aux := by simp [e.length_aux] }

def markStale : Entry T := { e with stale := true }

theorem slot_new (i : Nat) : (new b : Entry T).slot i = if i = 0 then some b else none := by
  unfold slot new
  split_ifs
  · rfl
  · simp [List.getElem?_getD_replicate_default_eq]

theorem slot_attach {i j : Nat} (hi : 0 < i) (hiN : i < T.indexCount) :
    (e.attach b i).slot j = if j = i then some b else e.slot j := by
  have hlen : i-1 < e.aux.length := by rw [e.length_aux]; simp [Streams.indexCount] at hiN; omega
  unfold slot attach
  by_cases hj : j = 0
  · simp [hj, Nat.pos_iff_ne_zero.mp hi, Ne.symm (Nat.pos_iff_ne_zero.mp hi)]
  · simp only [hj, if_false, List.getD_eq_getElem?_getD, List.getElem?_set, hlen]
    by_cases hji : j = i
    · simp [hji]
    · simp [hji, show ¬(i-1 = j-1) by omega]

@[simp] theorem slot_markStale (i : Nat) : e.markStale.slot i = e.slot i := rfl
@[simp] theorem stale_new : (new b : Entry T).stale = false := rfl
@[simp] theorem stale_attach (i : Nat) : (e.attach b i).stale = e.stale := rfl
@[simp] theorem stale_markStale : e.markStale.stale = true := rfl

end Entry

namespace Entries

def attachAt (E : List (Entry T)) (i k : Nat) (b : List UInt8) : List (Entry T) :=
  E.mapIdx fun j e => if j = k then e.attach b i else if k < j then e.markStale else e

/-- The abstract store. `none` marks the runs the refinement is not about: an attachment to
a stream or an entry that does not exist, a truncation the ghost flag forbids, and the
calls that move a cursor. -/
def step (E : List (Entry T)) : Op T → Option (List (Entry T))
  | .write t => some (E ++ [.new t.bytes])
  | .writeAt i k t =>
    if 0 < i ∧ i < T.indexCount ∧ k < E.length then some (attachAt E i k t.bytes) else none
  | .clearBuffer | .reload => some E
  | .truncate k =>
    match E[k]? with
    | some e => if e.stale then none else some (E.take k)
    | none => some E
  | .seekEnd | .seek .. | .grow .. => none

def run (E : List (Entry T)) : List (Op T) → Option (List (Entry T))
  | [] => some E
  | op :: ops => step E op >>= fun E' => run E' ops

theorem getElem?_attachAt {E : List (Entry T)} {i k j : Nat} {b : List UInt8} :
    (attachAt E i k b)[j]? =
      E[j]?.map fun e => if j = k then e.attach b i else if k < j then e.markStale else e := by
  simp [attachAt]

end Entries

def SlotAt (d : List UInt8) (o : Nat) : Option (List UInt8) → Prop
  | none => o = InvalidFileIndex
  | some p => 0 < p.length ∧ o+p.length ≤ d.length ∧ (d.drop o).take p.length = p

theorem SlotAt.append {d : List UInt8} {o : Nat} {s : Option (List UInt8)} (h : SlotAt d o s)
    (b : List UInt8) : SlotAt (d ++ b) o s := by
  cases s with
  | none => exact h
  | some p =>
    obtain ⟨hp, hle, hd⟩ := h
    refine ⟨hp, by simp; omega, ?_⟩
    rw [List.drop_append_of_le_length (by omega), List.take_append_of_le_length (by simp; omega), hd]

theorem SlotAt.take {d : List UInt8} {o c : Nat} {s : Option (List UInt8)} (h : SlotAt d o s)
    (hc : ∀ p, s = some p → o+p.length ≤ c) : SlotAt (d.take c) o s := by
  cases s with
  | none => exact h
  | some p =>
    obtain ⟨hp, hle, hd⟩ := h
    have := hc p rfl
    refine ⟨hp, by simp; omega, ?_⟩
    rw [List.drop_take, List.take_take, Nat.min_eq_left (by omega), hd]

theorem slotAt_end (d b : List UInt8) (hb : 0 < b.length) : SlotAt (d ++ b) d.length (some b) :=
  ⟨hb, by simp, by simp⟩

namespace View

/-- The logical view holds the entry list. -/
structure Holds (v : View) (E : List (Entry T)) : Prop where
  wf : v.Wf T
  count : v.count T = E.length
  slot : ∀ k e, E[k]? = some e → ∀ i < T.indexCount, SlotAt v.data (v.cell T k i) (e.slot i)
  before : ∀ j k d e, E[j]? = some d → E[k]? = some e → j < k → e.stale = false →
    ∀ i < T.indexCount, ∀ p, d.slot i = some p → v.cell T j i+p.length ≤ v.cell T k 0

def Kept (v : View) (E : List (Entry T)) (v' : View) (E' : List (Entry T)) : Prop :=
  ∀ k e, E'[k]? = some e → ∀ i < T.indexCount, ∀ p, e.slot i = some p →
    (∃ d, E[k]? = some d ∧ d.slot i = some p ∧ v'.cell T k i = v.cell T k i) ∨
      v'.cell T k i = v.data.length

variable {v : View} {E : List (Entry T)} {b : List UInt8}

theorem Holds.lt_count (hh : v.Holds E) {k : Nat} {e : Entry T} (he : E[k]? = some e) :
    k < v.count T := by
  rw [hh.count]; exact (List.getElem?_eq_some_iff.mp he).1

theorem Holds.push (hh : v.Holds E) (hb : 0 < b.length) :
    (v.push T b).Holds (E ++ [.new b]) ∧ Kept v E (v.push T b) (E ++ [.new b]) := by
  have hc := fun k i (hi : i < T.indexCount) => cell_push (b := b) (k := k) hh.wf.dvd hi
  have hget : ∀ k e, (E ++ [.new b])[k]? = some e →
      (E[k]? = some e ∧ k < v.count T) ∨ (k = v.count T ∧ e = .new b) := by
    intro k e he
    rcases Nat.lt_or_ge k E.length with hk | hk
    · rw [List.getElem?_append_left hk] at he; exact .inl ⟨he, hh.count ▸ hk⟩
    · rw [List.getElem?_append_right hk] at he
      obtain ⟨h0, rfl⟩ : k-E.length = 0 ∧ Entry.new b = e := by
        simpa [List.getElem?_cons, Nat.sub_eq_zero_iff_le] using he
      exact .inr ⟨by rw [hh.count]; omega, rfl⟩
  refine ⟨⟨hh.wf.push, by rw [count_push, hh.count, List.length_append, List.length_singleton],
    fun k e he i hi => ?_, fun j k d e hd he hjk hs i hi p hp => ?_⟩,
    fun k e he i hi p hp => ?_⟩
  · rw [hc k i hi, data_push]
    rcases hget k e he with ⟨he, hk⟩ | ⟨rfl, rfl⟩
    · rw [if_pos hk]; exact (hh.slot k e he i hi).append b
    · rw [if_neg (Nat.lt_irrefl _), if_pos rfl, Entry.slot_new b i]
      split_ifs
      · exact slotAt_end _ _ hb
      · rfl
  · rw [hc j i hi, hc k 0 T.indexCount_pos]
    rcases hget j d hd with ⟨hd, hj⟩ | ⟨rfl, rfl⟩
    · rcases hget k e he with ⟨he, hk⟩ | ⟨rfl, rfl⟩
      · rw [if_pos hj, if_pos hk]; exact hh.before j k d e hd he hjk hs i hi p hp
      · rw [if_pos hj, if_neg (Nat.lt_irrefl _), if_pos rfl, if_pos rfl]
        have := hh.slot j d hd i hi
        rw [hp] at this
        exact this.2.1
    · rcases hget k e he with ⟨-, hk⟩ | ⟨rfl, -⟩ <;> omega
  · rw [hc k i hi]
    rcases hget k e he with ⟨he, hk⟩ | ⟨rfl, rfl⟩
    · exact .inl ⟨e, he, hp, if_pos hk⟩
    · rw [if_neg (Nat.lt_irrefl _), if_pos rfl]
      rw [Entry.slot_new b i] at hp
      split_ifs at hp ⊢
      exact .inr rfl

theorem Kept.refl (v : View) (E : List (Entry T)) : Kept v E v E :=
  fun _ e he _ _ _ hp => .inl ⟨e, he, hp, rfl⟩

theorem Holds.attach (hh : v.Holds E) {i k : Nat} (hi : 0 < i) (hiN : i < T.indexCount)
    (hk : k < E.length) (hb : 0 < b.length) :
    (v.attach T i k b).Holds (Entries.attachAt E i k b) ∧
      Kept v E (v.attach T i k b) (Entries.attachAt E i k b) := by
  have hk' : k < v.count T := hh.count ▸ hk
  have hc := fun j i' (hi' : i' < T.indexCount) => cell_attach (b := b) (j := j) hiN hk' hi'
  have hget : ∀ j e, (Entries.attachAt E i k b)[j]? = some e → ∃ d, E[j]? = some d ∧
      e = if j = k then d.attach b i else if k < j then d.markStale else d := by
    intro j e he
    rw [Entries.getElem?_attachAt] at he
    obtain ⟨d, hd, rfl⟩ := Option.map_eq_some'.mp he
    exact ⟨d, hd, rfl⟩
  have hslot : ∀ j (d : Entry T) i', (if j = k then d.attach b i else if k < j then d.markStale
      else d).slot i' = if j = k ∧ i' = i then some b else d.slot i' := by
    intro j d i'
    by_cases hj : j = k
    · simp only [hj, if_true, true_and, Entry.slot_attach _ _ hi hiN]
    · simp only [hj, if_false, false_and]; split_ifs <;> rfl
  refine ⟨⟨hh.wf.attach hi hiN hk', by simp [count_attach, hh.count, Entries.attachAt],
    fun j e he i' hi' => ?_, fun j k' d e hd he hjk hs i' hi' p hp => ?_⟩,
    fun j e he i' hi' p hp => ?_⟩
  · obtain ⟨d, hd, rfl⟩ := hget j e he
    rw [hc j i' hi', hslot, data_attach]
    split_ifs with h
    · exact slotAt_end _ _ hb
    · exact (hh.slot j d hd i' hi').append b
  · obtain ⟨d', hd', rfl⟩ := hget j d hd
    obtain ⟨e', he', rfl⟩ := hget k' e he
    have hk'k : k' ≤ k := by
      by_contra h
      simp [show k' ≠ k by omega, show k < k' by omega] at hs
    have hjk' : j ≠ k := by omega
    rw [hslot, if_neg (fun h => hjk' h.1)] at hp
    rw [hc j i' hi', hc k' 0 T.indexCount_pos, if_neg (fun h => hjk' h.1),
      if_neg (fun h => by omega)]
    refine hh.before j k' d' e' hd' he' hjk ?_ i' hi' p hp
    by_cases h : k' = k
    · simpa [h] using hs
    · simpa [h, show ¬k < k' by omega] using hs
  · obtain ⟨d, hd, rfl⟩ := hget j e he
    rw [hc j i' hi']
    rw [hslot] at hp
    split_ifs at hp ⊢ with h
    · exact .inr rfl
    · exact .inl ⟨d, hd, hp, rfl⟩

theorem Holds.cut (hh : v.Holds E) {k : Nat} {e : Entry T} (he : E[k]? = some e)
    (hs : e.stale = false) : (v.cut T k).Holds (E.take k) ∧ Kept v E (v.cut T k) (E.take k) := by
  have hk := hh.lt_count he
  have hc := fun j i (hi : i < T.indexCount) => cell_cut (v := v) (k := k) (j := j) hi
  have hget : ∀ j d, (E.take k)[j]? = some d → j < k ∧ E[j]? = some d := by
    intro j d hd
    rw [List.getElem?_take] at hd
    split_ifs at hd with h
    exact ⟨h, hd⟩
  refine ⟨⟨hh.wf.cut hk, by rw [count_cut hk.le, List.length_take, ← hh.count, Nat.min_eq_left hk.le],
    fun j d hd i hi => ?_, fun j k' d e' hd he' hjk hs' i hi p hp => ?_⟩,
    fun j d hd i hi p hp => ?_⟩
  · obtain ⟨hj, hd⟩ := hget j d hd
    rw [hc j i hi, if_pos hj, data_cut]
    exact (hh.slot j d hd i hi).take fun p hp => hh.before j k d e hd he hj hs i hi p hp
  · obtain ⟨hj, hd⟩ := hget j d hd
    obtain ⟨hk', he'⟩ := hget k' e' he'
    rw [hc j i hi, hc k' 0 T.indexCount_pos, if_pos hj, if_pos hk']
    exact hh.before j k' d e' hd he' hjk hs' i hi p hp
  · obtain ⟨hj, hd⟩ := hget j d hd
    exact .inl ⟨d, hd, hp, by rw [hc j i hi, if_pos hj]⟩

theorem Holds.step (hh : v.Holds E) {op : Op T} {E' : List (Entry T)}
    (hE : Entries.step E op = some E') :
    ∃ v', v.step op = some v' ∧ v'.Holds E' ∧ Kept v E v' E' := by
  cases op with
  | write t => cases hE; exact ⟨_, rfl, hh.push t.length_pos⟩
  | writeAt i k t =>
    simp only [Entries.step] at hE
    split at hE
    · cases hE
      rename_i hik
      exact ⟨_, if_pos ⟨hik.1, hik.2.1, hh.count ▸ hik.2.2⟩,
        hh.attach hik.1 hik.2.1 hik.2.2 t.length_pos⟩
    · cases hE
  | clearBuffer | reload => cases hE; exact ⟨v, rfl, hh, Kept.refl v E⟩
  | truncate k =>
    simp only [Entries.step] at hE
    split at hE
    · rename_i e he
      split at hE
      · cases hE
      · rename_i hs
        cases hE
        exact ⟨_, by simp [View.step, hh.lt_count he], hh.cut he (by simpa using hs)⟩
    · cases hE
      rename_i he
      have : ¬k < v.count T := by rw [hh.count]; simpa using he
      exact ⟨v, by simp [View.step, this], hh, Kept.refl v E⟩
  | seekEnd | seek | grow => cases hE

end View

/-- Every payload lies wholly in the data file's mapping or wholly in its buffer, so a
pointer to its start reads all of it. -/
def Regions (m : IndexedFileMapper T) (E : List (Entry T)) : Prop :=
  ∀ k e, E[k]? = some e → ∀ i < T.indexCount, ∀ p, e.slot i = some p →
    m.view.cell T k i+p.length ≤ m.dataFile.file.length ∨ m.dataFile.file.length ≤ m.view.cell T k i

theorem Regions.step {m m' : IndexedFileMapper T} {E E' : List (Entry T)} (hr : Regions m E)
    (hkept : DataKept m m') (hh : m'.view.Holds E') (hk : View.Kept m.view E m'.view E') :
    Regions m' E' := by
  intro k e he i hi p hp
  rcases hkept with hF | hB
  · rcases hk k e he i hi p hp with ⟨d, hd, hdp, hcell⟩ | hnew
    · rw [hcell, hF]; exact hr k d hd i hi p hdp
    · rw [hnew, hF, length_data]; exact .inr (Nat.le_add_right _ _)
  · have hs := hh.slot k e he i hi
    rw [hp] at hs
    have hle := hs.2.1
    rw [length_data] at hle
    exact .inl (by simpa [SimpleFileMapper.size, hB] using hle)

theorem refines_run {m : IndexedFileMapper T} {E E' : List (Entry T)} {ops : List (Op T)}
    (hm : m.AtEnd) (hh : m.view.Holds E) (hr : Regions m E) (hE : Entries.run E ops = some E')
    (hf : m.view.fits ops = true) :
    ∃ m', m.run ops = .ok m' ∧ m.view.run ops = some m'.view ∧ m'.AtEnd ∧ m'.view.Holds E' ∧
      Regions m' E' := by
  induction ops generalizing m E with
  | nil => cases hE; exact ⟨m, rfl, rfl, hm, hh, hr⟩
  | cons op ops ih =>
    simp only [Entries.run, Option.bind_eq_bind, Option.bind_eq_some] at hE
    obtain ⟨E₁, hE₁, hE'⟩ := hE
    obtain ⟨hwin, hrest⟩ := View.fits_cons.mp hf
    obtain ⟨v₁, hv₁, hh₁, hk₁⟩ := hh.step hE₁
    obtain ⟨m₁, hs₁, hmv, he₁, hkd⟩ := step_atEnd hm hh.wf hv₁ (length_index m ▸ hwin.1)
    subst hmv
    obtain ⟨m', hs', hvr, hrest⟩ := ih he₁ hh₁ (hr.step hkd hh₁ hk₁) hE' (hrest _ hv₁)
    exact ⟨m', by simp [run, hs₁, Bind.bind, Except.bind, hs'],
      by simp [View.run, hv₁, hvr], hrest⟩

theorem observe_slot {m : IndexedFileMapper T} {E : List (Entry T)} (hh : m.view.Holds E)
    (hr : Regions m E) (hdat : m.dataFile.size ≤ InvalidFileIndex) {k : Nat} {e : Entry T}
    (he : E[k]? = some e) {i : Nat} (hi : i < T.indexCount) :
    (m.view.cell T k i = InvalidFileIndex ∧ e.slot i = none ∨
      m.view.cell T k i < m.dataFile.size ∧ m.view.cell T k i ≠ InvalidFileIndex) ∧
    ∃ p, m.dataFile.getDataAtOffset (m.view.cell T k i) = .ok p ∧ (p = .null ↔ e.slot i = none) ∧
      ∀ b, e.slot i = some b → m.dataFile.read p b.length = some b := by
  have hs := hh.slot k e he i hi
  cases hsl : e.slot i with
  | none =>
    rw [hsl] at hs
    have hinv : m.view.cell T k i = InvalidFileIndex := hs
    rw [hinv]
    exact ⟨.inl ⟨rfl, rfl⟩, .null, SimpleFileMapper.getDataAtOffset_invalid _, by simp, by simp⟩
  | some b =>
    rw [hsl] at hs
    obtain ⟨hb, hle, hd⟩ := hs
    rw [length_data] at hle
    obtain ⟨p, hp, hpn, hread⟩ := m.dataFile.read_getDataAtOffset (by omega) hle (by omega)
      (hr k e he i hi b hsl)
    refine ⟨.inr ⟨by omega, by omega⟩, p, hp, by simp [hpn], fun b' hb' => ?_⟩
    cases hb'
    rw [hread]
    exact congrArg some hd

theorem observe_entry {m : IndexedFileMapper T} {E : List (Entry T)} (hh : m.view.Holds E)
    (hr : Regions m E) (hidx : m.indexFile.dataFile.size ≤ InvalidFileIndex)
    (hdat : m.dataFile.size ≤ InvalidFileIndex) {k : Nat} {e : Entry T} (he : E[k]? = some e) :
    ∃ offsets, m.getOffsets k = .ok offsets ∧ offsets.getD 0 0 ≠ InvalidFileIndex ∧
      ∀ i < T.indexCount, (offsets.getD i 0 ≠ InvalidFileIndex → offsets.getD i 0 < m.dataFile.size) ∧
        ∃ p, m.getDataAtIndex i k = .ok p ∧ (∃ ps, m.getData k = .ok ps ∧ ps[i]? = some p) ∧
          (p = .null ↔ e.slot i = none) ∧ ∀ b, e.slot i = some b → m.dataFile.read p b.length = some b := by
  have hk : k < m.size := by rw [size_eq_count]; exact hh.lt_count he
  have hslot := fun i (hi : i < T.indexCount) => observe_slot hh hr hdat he hi
  have hok : ∀ i < T.indexCount, m.OffsetOk (m.view.cell T k i) := fun i hi =>
    (hslot i hi).1.elim (fun h => .inr h.1) (fun h => .inl h.1)
  obtain ⟨ps, hps, hpsi⟩ := m.getData_eq hk hidx hok
  refine ⟨_, m.getOffsets_eq hk hidx, ?_, fun i hi => ?_⟩
  · rw [m.getD_record T.indexCount_pos]
    rcases (hslot 0 T.indexCount_pos).1 with h | h
    · simp [Entry.slot] at h
    · exact h.2
  rw [m.getD_record hi, m.getDataAtIndex_eq hk hidx hi (hok i hi)]
  obtain ⟨hc, p, hp, hnull, hread⟩ := hslot i hi
  exact ⟨fun hne => hc.elim (fun h => absurd h.1 hne) (·.1), p, hp, ⟨ps, hps, hpsi i hi p hp⟩,
    hnull, hread⟩

/-- The indexed store refines the list of entries: along every run of primary writes,
attachments, flushes, reloads and truncations from empty files that the abstract store
accepts, and that keeps both files within `OffsetType`, the code completes, `size()` is the
number of entries, and every slot reads back through `getDataAtIndex` and `getData` as the
abstract store holds it. -/
theorem refines_entries {ops : List (Op T)} {E : List (Entry T)} (hE : Entries.run [] ops = some E)
    (hfit : View.fits ⟨[], []⟩ ops = true) :
    ∃ m, (empty : IndexedFileMapper T).run ops = .ok m ∧ m.size = E.length ∧ ∀ k e, E[k]? = some e →
      ∃ offsets, m.getOffsets k = .ok offsets ∧ offsets.getD 0 0 ≠ InvalidFileIndex ∧
        ∀ i < T.indexCount, (offsets.getD i 0 ≠ InvalidFileIndex → offsets.getD i 0 < m.dataFile.size) ∧
          ∃ p, m.getDataAtIndex i k = .ok p ∧ (∃ ps, m.getData k = .ok ps ∧ ps[i]? = some p) ∧
            (p = .null ↔ e.slot i = none) ∧ ∀ b, e.slot i = some b → m.dataFile.read p b.length = some b := by
  have h0 : (empty : IndexedFileMapper T).view.Holds ([] : List (Entry T)) :=
    ⟨wf_empty, by simp [View.count, empty_view], by simp, by simp⟩
  obtain ⟨m, hm, hv, -, hh, hr⟩ := refines_run empty_atEnd h0 (by simp [Regions]) hE hfit
  obtain ⟨hwi, hwd⟩ := View.within_run hv hfit
  rw [length_index] at hwi
  rw [length_data] at hwd
  exact ⟨m, hm, by rw [size_eq_count, hh.count], fun k e he => observe_entry hh hr hwi hwd he⟩

theorem refines_entries_after_truncate :
    ∃ m, (empty : IndexedFileMapper byteThenWord).run
        [.write (.value ⟨[7], rfl⟩), .writeAt 1 0 (.value ⟨List.replicate 8 0, rfl⟩), .clearBuffer,
          .write (.value ⟨[9], rfl⟩), .truncate 1] = .ok m ∧ m.size = 1 ∧
      ∀ k (e : Entry byteThenWord), [⟨[7], [some (List.replicate 8 0)], rfl, false⟩][k]? = some e →
      ∃ offsets, m.getOffsets k = .ok offsets ∧ offsets.getD 0 0 ≠ InvalidFileIndex ∧
        ∀ i < byteThenWord.indexCount,
          (offsets.getD i 0 ≠ InvalidFileIndex → offsets.getD i 0 < m.dataFile.size) ∧
          ∃ p, m.getDataAtIndex i k = .ok p ∧ (∃ ps, m.getData k = .ok ps ∧ ps[i]? = some p) ∧
            (p = .null ↔ e.slot i = none) ∧ ∀ b, e.slot i = some b → m.dataFile.read p b.length = some b :=
  refines_entries (E := [⟨[7], [some (List.replicate 8 0)], rfl, false⟩]) rfl rfl

end IndexedFileMapper
end BlockSci
