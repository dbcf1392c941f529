import Mathlib

/-! Record layouts and the `ArbitraryLengthData` builder of `file_mapper.hpp`. A record
type is known to the store only through `sizeof` and `alignof`; a value is its raw bytes. -/
namespace BlockSci

/-- `sizeof(T)` and `alignof(T)` of a trivially copyable record type. C++ makes every
size a positive multiple of the alignment. -/
structure RecordType where
  size : Nat
  align : Nat
  size_pos : 0 < size
  align_dvd : align ∣ size

def RecordType.Value (T : RecordType) := {b : List UInt8 // b.length = T.size}

theorem RecordType.align_pos (T : RecordType) : 0 < T.align :=
  Nat.pos_of_dvd_of_pos T.align_dvd T.size_pos

/-- `ArbitraryLengthData<MainType>`: a head of type `M` followed by a tail whose length
is known at run time. The head is added by the constructor, so it is always there. -/
structure ArbitraryLengthData (M : RecordType) where
  rawData : List UInt8
  size_le : M.size ≤ rawData.length

namespace ArbitraryLengthData
variable {M : RecordType}

def ofHead (head : M.Value) : ArbitraryLengthData M := ⟨head.1, head.2.ge⟩

def add (d : ArbitraryLengthData M) (t : List UInt8) : ArbitraryLengthData M :=
  ⟨d.rawData ++ t, by simpa using Nat.le_add_right_of_le d.size_le⟩

def addRange (d : ArbitraryLengthData M) : List (List UInt8) → ArbitraryLengthData M
  | [] => d
  | t :: ts => (d.add t).addRange ts

def size (d : ArbitraryLengthData M) : Nat := d.rawData.length

def padding (align n : Nat) : Nat := if n % align > 0 then align - n % align else 0

/-- `finalize()`: pad `rawData` with zero bytes to the next multiple of `alignof(MainType)`.
The pointer it returns is `rawData.data()`, so the model returns the padded builder. -/
def finalize (d : ArbitraryLengthData M) : ArbitraryLengthData M :=
  ⟨d.rawData ++ List.replicate (padding M.align d.rawData.length) 0,
    by simpa using Nat.le_add_right_of_le d.size_le⟩

inductive Add where
  | value (t : List UInt8)
  | range (ts : List (List UInt8))

def Add.bytes : Add → List UInt8
  | .value t => t
  | .range ts => ts.flatten

def Add.apply (d : ArbitraryLengthData M) : Add → ArbitraryLengthData M
  | .value t => d.add t
  | .range ts => d.addRange ts

def addAll (d : ArbitraryLengthData M) (calls : List Add) : ArbitraryLengthData M :=
  calls.foldl Add.apply d

@[simp] theorem rawData_add (d : ArbitraryLengthData M) (t : List UInt8) :
    (d.add t).rawData = d.rawData ++ t := rfl

@[simp] theorem rawData_addRange (d : ArbitraryLengthData M) (ts : List (List UInt8)) :
    (d.addRange ts).rawData = d.rawData ++ ts.flatten := by
  induction ts generalizing d with
  | nil => simp [addRange]
  | cons t ts ih => simp [addRange, ih]

theorem rawData_addAll (d : ArbitraryLengthData M) (calls : List Add) :
    (d.addAll calls).rawData = d.rawData ++ (calls.map Add.bytes).flatten := by
  induction calls generalizing d with
  | nil => simp [addAll]
  | cons c calls ih =>
    simp only [addAll, List.foldl_cons] at ih ⊢
    rw [ih]
    cases c <;> simp [Add.apply, Add.bytes]

/-! Padding arithmetic: `n + padding a n` is the least multiple of `a` not below `n`. -/

theorem padding_lt {a : Nat} (ha : 0 < a) (n : Nat) : padding a n < a := by
  unfold padding; split <;> omega

theorem dvd_add_padding {a : Nat} (ha : 0 < a) (n : Nat) : a ∣ n + padding a n := by
  have h := Nat.mod_add_div n a
  have hlt : n % a < a := Nat.mod_lt n ha
  unfold padding
  split
  · exact ⟨n / a + 1, by rw [Nat.mul_add, Nat.mul_one]; omega⟩
  · exact ⟨n / a, by omega⟩

theorem padding_of_dvd {a n : Nat} (h : a ∣ n) : padding a n = 0 := by
  simp [padding, Nat.eq_zero_of_dvd_of_lt, Nat.mod_eq_zero_of_dvd h]

theorem size_finalize (d : ArbitraryLengthData M) :
    d.finalize.size = d.size + padding M.align d.size := by
  simp [finalize, size]

theorem align_dvd_size_finalize (d : ArbitraryLengthData M) : M.align ∣ d.finalize.size := by
  rw [size_finalize]; exact dvd_add_padding M.align_pos _

theorem finalize_finalize (d : ArbitraryLengthData M) : d.finalize.finalize = d.finalize := by
  have h := padding_of_dvd (align_dvd_size_finalize d)
  rw [size_finalize] at h
  simpa [finalize, size] using h

/-- `finalize` after the constructor and any sequence of `add` calls: the head, then every
added value in order, then fewer than `alignof(M)` zero bytes, to the least multiple of
`alignof(M)` not below the staged length; a second `finalize` changes nothing. -/
theorem finalize_addAll (head : M.Value) (calls : List Add) :
    let d := (ofHead head).addAll calls
    let staged := head.1 ++ (calls.map Add.bytes).flatten
    d.finalize.rawData = staged ++ List.replicate (padding M.align staged.length) 0 ∧
      d.finalize.size = staged.length + padding M.align staged.length ∧
      M.align ∣ d.finalize.size ∧ padding M.align staged.length < M.align ∧
      d.finalize.finalize = d.finalize := by
  have hd : ((ofHead head).addAll calls).rawData = head.1 ++ (calls.map Add.bytes).flatten := by
    simp [ArbitraryLengthData.rawData_addAll, ofHead]
  refine ⟨by simp [finalize, hd], ?_, align_dvd_size_finalize _, padding_lt M.align_pos _,
    finalize_finalize _⟩
  rw [size_finalize, size, hd]

end ArbitraryLengthData
end BlockSci
