import BlockSci.FixedSizeFileMapper

/-! A `SimpleFileMapper<write>` refines a growable array with a write cursor, and a
`FixedSizeFileMapper` runs the same machine over records. -/
namespace BlockSci

/-- A growable array of cells and a write cursor. -/
structure Cursor (α : Type) where
  cells : List α
  pos : Nat

namespace Cursor
variable {α : Type} [Zero α]
open SimpleFileMapper (Op)

def step (c : Cursor α) : Op α → Option (Cursor α)
  | .write v => if c.pos ≤ c.cells.length then some ⟨overwrite c.cells c.pos v, c.pos+v.length⟩ else none
  | .seek o => some ⟨c.cells, o⟩
  | .seekEnd => some ⟨c.cells, c.cells.length⟩
  | .clearBuffer | .reload => some c
  | .truncate o => some ⟨c.cells.take o ++ List.replicate (o-c.cells.length) 0, min c.pos o⟩

def run (c : Cursor α) : List (Op α) → Option (Cursor α)
  | [] => some c
  | op :: ops => c.step op >>= fun c' => run c' ops

def appends (c : Cursor α) : List (Op α) → Bool
  | [] => true
  | op :: ops =>
    (match op with
      | .write _ => c.pos == c.cells.length
      | _ => true) && (c.step op).elim true (appends · ops)

end Cursor

namespace SimpleFileMapper
variable {α : Type} (s : SimpleFileMapper α)

def cursor : Cursor α := ⟨s.contents, s.writePos⟩

@[simp] theorem cursor_cells : s.cursor.cells = s.contents := rfl
@[simp] theorem cursor_pos : s.cursor.pos = s.writePos := rfl

variable [Zero α] {s}

theorem write_of_step {v : List α} {s' : SimpleFileMapper α} (h : s.step (.write v) = .ok s') :
    ∃ full, s.write v = .ok (full, s') := by
  simp only [step] at h
  cases hw : s.write v with
  | error e => rw [hw] at h; cases h
  | ok r =>
    rw [hw] at h
    cases h
    exact ⟨r.1, rfl⟩

theorem step_refines {op : Op α} {s' : SimpleFileMapper α} (h : s.step op = .ok s') :
    s.cursor.step op = some s'.cursor := by
  cases op with
  | write v =>
    obtain ⟨full, hw⟩ := write_of_step h
    obtain ⟨hc, hp, -⟩ := s.write_spec v hw
    have hle : s.writePos ≤ s.contents.length := by
      rw [length_contents]
      rcases (s.write_ok_iff v).mp ⟨_, hw⟩ with hs | ⟨hf, -⟩
      · exact hs.le
      · exact Nat.le_trans hf.le (Nat.le_add_right _ _)
    simp only [Cursor.step, cursor_cells, cursor_pos, if_pos hle, cursor, hc, hp]
  | seek o => cases h; rfl
  | seekEnd => cases h; simp [Cursor.step, cursor, contents, size]
  | clearBuffer | reload => cases h; simp [Cursor.step, cursor]
  | truncate o => cases h; simp [Cursor.step, cursor, contents, size]

/-- Every run the code completes is a run of the cursor machine, ending in the same
contents and cursor. -/
theorem run_refines_cursor {ops : List (Op α)} {s' : SimpleFileMapper α} (h : s.run ops = .ok s') :
    s.cursor.run ops = some s'.cursor := by
  induction ops generalizing s with
  | nil => cases h; rfl
  | cons op ops ih =>
    simp only [run] at h
    cases hs : s.step op with
    | error e => rw [hs] at h; cases h
    | ok s₁ =>
      rw [hs] at h
      simp only [Cursor.run, step_refines hs, Option.bind_eq_bind, Option.some_bind]
      exact ih h

theorem run_refines_three_cells :
    ∃ s', (ofFile [1, 2, 3] : SimpleFileMapper Nat).run [.seek 1, .write [9], .seekEnd, .write [4]] = .ok s' ∧
      (ofFile [1, 2, 3]).cursor.run [.seek 1, .write [9], .seekEnd, .write [4]] = some s'.cursor :=
  ⟨_, rfl, run_refines_cursor rfl⟩

theorem step_ok_of_appends {op : Op α}
    (h : (match op with | .write _ => s.writePos == s.contents.length | _ => true) = true) :
    ∃ s', s.step op = .ok s' := by
  cases op with
  | write v =>
    have hend : s.writePos = s.size := by simpa using h
    obtain ⟨full, s', hw, -⟩ := s.write_at_end v hend
    exact ⟨s', by simp [step, hw, Except.map]⟩
  | _ => exact ⟨_, rfl⟩

/-- Every run whose writes start at the end completes, in the cursor machine's state. -/
theorem run_completes_of_appends {ops : List (Op α)} (h : s.cursor.appends ops = true) :
    ∃ s', s.run ops = .ok s' ∧ s.cursor.run ops = some s'.cursor := by
  induction ops generalizing s with
  | nil => exact ⟨s, rfl, rfl⟩
  | cons op ops ih =>
    simp only [Cursor.appends, Bool.and_eq_true] at h
    obtain ⟨s₁, hs₁⟩ := step_ok_of_appends h.1
    have hc₁ := step_refines hs₁
    rw [hc₁] at h
    obtain ⟨s', hs', hc'⟩ := ih h.2
    refine ⟨s', ?_, ?_⟩
    · simp only [run, hs₁]
      exact hs'
    · simp only [Cursor.run, hc₁, Option.bind_eq_bind, Option.some_bind]
      exact hc'

theorem run_completes_appending :
    ∃ s', (ofFile [1, 2] : SimpleFileMapper Nat).run [.write [3], .clearBuffer, .truncate 5, .seekEnd,
        .write [7, 8]] = .ok s' ∧
      (ofFile [1, 2]).cursor.run [.write [3], .clearBuffer, .truncate 5, .seekEnd, .write [7, 8]] =
        some s'.cursor :=
  run_completes_of_appends (by decide)

end SimpleFileMapper

namespace FixedSizeFileMapper
variable {α : Type} {S : Nat} [Zero α]

def Op.toFileOp : Op α S → SimpleFileMapper.Op α
  | .write t _ => .write t
  | .seek i => .seek (i*S)
  | .seekEnd => .seekEnd
  | .clearBuffer => .clearBuffer
  | .reload => .reload
  | .truncate i => .truncate (i*S)

theorem step_dataFile {m m' : FixedSizeFileMapper α S} {op : Op α S} (h : m.step op = .ok m') :
    m.dataFile.step op.toFileOp = .ok m'.dataFile := by
  cases op with
  | write t ht =>
    simp only [step] at h
    cases hw : m.write t ht with
    | error e => rw [hw] at h; cases h
    | ok r =>
      rw [hw] at h
      cases h
      simp [Op.toFileOp, SimpleFileMapper.step, dataFile_write hw, Except.map]
  | _ => cases h; rfl

/-- Every run the record store completes is a run of the cursor machine over its cells,
record indices scaled to cell positions. -/
theorem run_refines_cursor_cells {m m' : FixedSizeFileMapper α S} {ops : List (Op α S)}
    (h : m.run ops = .ok m') :
    m.dataFile.cursor.run (ops.map Op.toFileOp) = some m'.dataFile.cursor := by
  induction ops generalizing m with
  | nil => cases h; rfl
  | cons op ops ih =>
    simp only [run] at h
    cases hs : m.step op with
    | error e => rw [hs] at h; cases h
    | ok m₁ =>
      rw [hs] at h
      simp only [List.map_cons, Cursor.run, SimpleFileMapper.step_refines (step_dataFile hs),
        Option.bind_eq_bind, Option.some_bind]
      exact ih h

theorem run_refines_cursor_overwrite :
    ∃ m', (ofFile [1, 2, 3, 4] (by decide) : FixedSizeFileMapper Nat 2).run
        [.seek 1, .write [5, 6] rfl, .seekEnd] = .ok m' ∧
      (ofFile [1, 2, 3, 4] (by decide) : FixedSizeFileMapper Nat 2).dataFile.cursor.run
        ([.seek 1, .write [5, 6] rfl, .seekEnd].map Op.toFileOp) = some m'.dataFile.cursor :=
  ⟨_, rfl, by exact run_refines_cursor_cells (m := ofFile [1, 2, 3, 4] (by decide)) rfl⟩

end FixedSizeFileMapper
end BlockSci
