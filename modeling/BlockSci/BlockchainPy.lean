import Mathlib

/-! `__getitem__` of the Python `Blockchain` class (`blockchain_py.cpp`), over an `int64_t`
height and over a `py::slice`, against CPython's sequence indexing and slicing. -/
namespace BlockSci.BlockchainPy

/-- How `chain.size() + i` and `% chain.size()` evaluate against an `int64_t i`. The type of
`Blockchain::size()` is declared outside this file, so both readings are kept. -/
inductive SizeArith where
  /-- A signed type of at most 64 bits, or an unsigned one of at most 32: `int64_t`
  arithmetic, where `%` truncates toward zero. -/
  | signed
  /-- A 64-bit unsigned type: `i` converts to `uint64_t`, and the arithmetic is modulo
  `2^64`. -/
  | unsigned
  deriving DecidableEq, Repr

/-- How a call ends without a result: a Python exception, or undefined behaviour in the
C++ body. -/
inductive Failure where
  /-- `throw py::index_error()`. -/
  | indexError
  /-- `slice.compute` failed: `throw py::error_already_set()`. -/
  | errorAlreadySet
  /-- `% chain.size()` on the empty chain. -/
  | remainderByZero
  /-- `view::slice(start, stop)` outside its precondition `start ≤ stop ≤ size()`. -/
  | slicePrecondition
  deriving DecidableEq, Repr

/-! ### `__getitem__(int64_t i)` -/

def normalize : SizeArith → Nat → Int → Except Failure Int
  | _, 0, _ => .error .remainderByZero
  | .signed, n, i => .ok ((n + i).tmod n)
  | .unsigned, n, i => .ok ((n + i) % 2^64 % n)

/-- `__getitem__(chain, i)` on a chain of `n` blocks: the height `posIndex` of the block
returned, which is `i` once the check passes (a `size()` below `2^63`). -/
def getitem (a : SizeArith) (n : Nat) (i : Int) : Except Failure Nat :=
  (if i < 0 then normalize a n i else .ok i) >>= fun i =>
    let posIndex := (i % 2^64).toNat
    if n ≤ posIndex then .error .indexError else .ok posIndex

/-- Modelled from the spec: Python's `seq[i]` on a sequence of `n` items, the position it
names, or `none` for `IndexError`. -/
def pyIndex (n : Nat) (i : Int) : Option Nat :=
  if 0 ≤ i ∧ i < n then some i.toNat
  else if -n ≤ i ∧ i < 0 then some (n + i).toNat
  else none

theorem tmod_of_neg {x : Int} (hx : x < 0) (n : Nat) : x.tmod n = -(((-x).toNat % n : Nat) : Int) := by
  obtain ⟨m, rfl⟩ := Int.eq_negSucc_of_lt_zero hx
  rfl

section Index
variable {a : SizeArith} {n : Nat} {i : Int}

@[simp] theorem normalize_zero : normalize a 0 i = .error .remainderByZero := by
  cases a <;> rfl

@[simp] theorem normalize_signed (k : Nat) :
    normalize .signed (k+1) i = .ok ((↑(k+1) + i).tmod ↑(k+1)) := rfl

@[simp] theorem normalize_unsigned (k : Nat) :
    normalize .unsigned (k+1) i = .ok ((↑(k+1) + i) % 2^64 % ↑(k+1)) := rfl

theorem normalize_of_le (hlo : -n ≤ i) (hi : i < 0) (hn : n < 2^63) :
    normalize a n i = .ok (n + i) := by
  obtain ⟨k, rfl⟩ : ∃ k, n = k+1 := ⟨n-1, by omega⟩
  cases a with
  | signed => rw [normalize_signed, Int.tmod_eq_of_lt (by omega) (by omega)]
  | unsigned =>
    rw [normalize_unsigned, Int.emod_eq_of_lt (by omega) (by omega),
      Int.emod_eq_of_lt (by omega) (by omega)]

theorem getitem_of_normalized (h : (if i < 0 then normalize a n i else .ok i) = .ok j) :
    getitem a n i = if n ≤ (j % 2^64).toNat then .error .indexError else .ok (j % 2^64).toNat := by
  rw [getitem, h]
  rfl

theorem getitem_of_ok (h : (if i < 0 then normalize a n i else .ok i) = .ok j) (h0 : 0 ≤ j)
    (h64 : j < 2^63) : getitem a n i = if j < n then .ok j.toNat else .error .indexError := by
  rw [getitem_of_normalized h, Int.emod_eq_of_lt h0 (by omega)]
  by_cases hj : j < n
  · rw [if_pos hj, if_neg (by omega)]
  · rw [if_neg hj, if_pos (by omega)]

theorem getitem_of_nonneg (h0 : 0 ≤ i) (h64 : i < 2^63) :
    getitem a n i = if i < n then .ok i.toNat else .error .indexError :=
  getitem_of_ok (if_neg (by omega)) h0 h64

theorem getitem_of_neg (hlo : -n ≤ i) (hi : i < 0) (hn : n < 2^63) :
    getitem a n i = .ok (n + i).toNat := by
  rw [getitem_of_ok ((if_pos hi).trans (normalize_of_le hlo hi hn)) (by omega) (by omega),
    if_pos (by omega)]

/-- Wherever `i ≥ -size()`, the binding answers as Python's `seq[i]` does. -/
theorem getitem_agrees_with_python (hn : n < 2^63) (hi : i < 2^63) (hlo : -n ≤ i) :
    getitem a n i = (pyIndex n i).elim (.error .indexError) .ok := by
  by_cases h0 : 0 ≤ i
  · rw [getitem_of_nonneg h0 hi, pyIndex]
    by_cases hin : i < n
    · simp only [hin, h0, and_self, if_true, Option.elim]
    · simp only [hin, and_false, if_false, if_neg (show ¬ (-(n : Int) ≤ i ∧ i < 0) by omega),
        Option.elim]
  · rw [getitem_of_neg hlo (by omega) hn, pyIndex, if_neg (by omega), if_pos ⟨hlo, by omega⟩]
    rfl

theorem getitem_minus_one_of_two :
    getitem .unsigned 2 (-1) = (pyIndex 2 (-1)).elim (.error .indexError) .ok :=
  getitem_agrees_with_python (by decide) (by decide) (by decide)

theorem getitem_empty (hi : i < 0) : getitem a 0 i = .error .remainderByZero := by
  rw [getitem, if_pos hi, normalize_zero]
  rfl

theorem getitem_signed_below (hpos : 0 < n) (hn : n < 2^63) (hi : i < -n) :
    getitem .signed n i = if (n : Int) ∣ i then .ok 0 else .error .indexError := by
  obtain ⟨k, rfl⟩ : ∃ k, n = k+1 := ⟨n-1, by omega⟩
  have hdvd : ((k+1 : Nat) : Int) ∣ i ↔ (-((↑(k+1) : Int) + i)).toNat % (k+1) = 0 := by
    rw [← Nat.dvd_iff_mod_eq_zero, ← Int.natCast_dvd_natCast, Int.toNat_of_nonneg (by omega),
      Int.dvd_neg, Int.dvd_add_right (Int.dvd_refl _)]
  have hmod := Nat.mod_lt (-((↑(k+1) : Int) + i)).toNat (show 0 < k+1 by omega)
  rw [getitem_of_normalized ((if_pos (by omega)).trans (normalize_signed k)),
    tmod_of_neg (show (↑(k+1) : Int) + i < 0 by omega)]
  by_cases hd : ((k+1 : Nat) : Int) ∣ i
  · rw [if_pos hd, hdvd.1 hd]
    rfl
  · rw [if_neg hd, if_pos]
    have := hdvd.not.1 hd
    omega

theorem getitem_unsigned_below (hpos : 0 < n) (hn : n < 2^63) (hi : i < -n) :
    ∃ k < n, getitem .unsigned n i = .ok k := by
  obtain ⟨k, rfl⟩ : ∃ k, n = k+1 := ⟨n-1, by omega⟩
  have h0 := Int.emod_nonneg (((k+1 : Nat) : Int) + i) (show (2^64 : Int) ≠ 0 by decide)
  have hr0 := Int.emod_nonneg ((((k+1 : Nat) : Int) + i) % 2^64) (show ((k+1 : Nat) : Int) ≠ 0 by omega)
  have hrn := Int.emod_lt_of_pos ((((k+1 : Nat) : Int) + i) % 2^64) (show (0 : Int) < (k+1 : Nat) by omega)
  refine ⟨_, ?_, getitem_of_ok ((if_pos (by omega)).trans (normalize_unsigned k)) hr0 (by omega) |>.trans (if_pos hrn)⟩
  omega

/-- Below `-size()` Python raises `IndexError`; the binding divides by zero on the empty
chain, and otherwise returns block 0 (signed `size()`, `i` a multiple of it) or always
some block (64-bit unsigned `size()`). -/
theorem getitem_below (hn : n < 2^63) (hi : i < -n) :
    pyIndex n i = none ∧ (n = 0 → getitem a n i = .error .remainderByZero) ∧
      (0 < n → getitem .signed n i = if (n : Int) ∣ i then .ok 0 else .error .indexError) ∧
      (0 < n → ∃ k < n, getitem .unsigned n i = .ok k) := by
  refine ⟨?_, fun h => ?_, fun h => getitem_signed_below h hn hi,
    fun h => getitem_unsigned_below h hn hi⟩
  · rw [pyIndex, if_neg (by omega), if_neg (by omega)]
  · subst h
    exact getitem_empty (by omega)

theorem getitem_minus_seven_of_three :
    pyIndex 3 (-7) = none ∧ ∃ k < 3, getitem .unsigned 3 (-7) = .ok k :=
  have h := getitem_below (a := .signed) (n := 3) (i := -7) (by decide) (by decide)
  ⟨h.1, h.2.2.2 (by decide)⟩

end Index

/-- Both readings of `size()` divide by zero at `i = -1` on the empty chain, and map
`i = -6` on a chain of three blocks onto an existing block, where Python raises
`IndexError` in both cases. -/
theorem getitem_diverges_below_minus_size :
    getitem .signed 0 (-1) = .error .remainderByZero ∧
      getitem .unsigned 0 (-1) = .error .remainderByZero ∧ pyIndex 0 (-1) = none ∧
      getitem .signed 3 (-6) = .ok 0 ∧ getitem .unsigned 3 (-6) = .ok 1 ∧
      pyIndex 3 (-6) = none :=
  ⟨rfl, rfl, rfl, rfl, rfl, rfl⟩

/-! ### `__getitem__(py::slice)` -/

structure PySlice where
  start : Option Int
  stop : Option Int
  step : Option Int
  deriving DecidableEq, Repr

def ssizeMax : Int := 2^63 - 1

def sliceIndex (x : Int) : Int := max (-ssizeMax - 1) (min x ssizeMax)

def unpack (s : PySlice) : Option (Int × Int × Int) :=
  let step := s.step.elim 1 sliceIndex
  if step = 0 then none
  else
    let step := max step (-ssizeMax)
    some (s.start.elim (if step < 0 then ssizeMax else 0) sliceIndex,
      s.stop.elim (if step < 0 then -ssizeMax - 1 else ssizeMax) sliceIndex, step)

def adjustIndex (length step x : Int) : Int :=
  if x < 0 then (if x + length < 0 then (if step < 0 then -1 else 0) else x + length)
  else if length ≤ x then (if step < 0 then length - 1 else length)
  else x

def sliceLength (start stop step : Int) : Int :=
  if step < 0 then (if stop < start then (start - stop - 1).tdiv (-step) + 1 else 0)
  else if start < stop then (stop - start - 1).tdiv step + 1 else 0

/-- `slice.compute(length, &start, &stop, &step, &slicelength)`, that is
`PySlice_GetIndicesEx`: the four `Py_ssize_t` results, or `none` when it fails. -/
def compute (length : Nat) (s : PySlice) : Option (Int × Int × Int × Int) :=
  (unpack s).map fun (start, stop, step) =>
    let start := adjustIndex length step start
    let stop := adjustIndex length step stop
    (start, stop, step, sliceLength start stop step)

def toSizeT (x : Int) : Nat := (x % 2^64).toNat

def stride {α : Type} (s : Nat) : List α → List α
  | [] => []
  | x :: xs => x :: stride s (xs.drop (s - 1))
termination_by l => l.length
decreasing_by simp only [List.length_drop, List.length_cons]; omega

/-- `__getitem__(chain, slice)` on a chain of `n` blocks: the heights of the blocks
returned, with `view::slice(start, stop)` as `drop`/`take` under its precondition. -/
def getitemSlice (n : Nat) (s : PySlice) : Except Failure (List Nat) :=
  match compute n s with
  | none => .error .errorAlreadySet
  | some (start, stop, step, _) =>
    let start := toSizeT start
    let stop := toSizeT stop
    if start ≤ stop ∧ stop ≤ n then
      .ok (stride (toSizeT step) (((List.range n).drop start).take (stop - start)))
    else .error .slicePrecondition

/-- Modelled from the spec: `list(chain)[start:stop:step]` as CPython's `list_subscript`
builds it, `slicelength` positions from the normalised `start`, `step` apart. -/
def pySlice (n : Nat) (s : PySlice) : Option (List Nat) :=
  (compute n s).map fun (start, _, step, len) =>
    (List.range len.toNat).map fun k : Nat => (start + k * step).toNat

theorem stride_range' {s : Nat} (hs : 0 < s) (a m : Nat) :
    stride s (List.range' a m) = List.range' a ((m + s - 1) / s) s := by
  induction m using Nat.strong_induction_on generalizing a with
  | _ m ih =>
    cases m with
    | zero => rw [Nat.div_eq_of_lt (by omega), List.range'_zero, List.range'_zero, stride]
    | succ m =>
      have hq : (m - (s-1) + s - 1) / s = m / s := by
        rcases le_or_lt (s-1) m with h | h
        · congr 1
          omega
        · rw [Nat.div_eq_of_lt (by omega), Nat.div_eq_of_lt (by omega)]
      have hd : (List.range' (a+1) m).drop (s-1) = List.range' (a+s) (m - (s-1)) := by
        apply List.ext_getElem (by simp)
        intro i _ _
        simp only [List.getElem_drop, List.getElem_range']
        omega
      rw [List.range'_succ, stride, hd, ih _ (by omega), hq,
        show m+1+s-1 = m+s by omega, Nat.add_div_right _ hs, List.range'_succ]

theorem range_drop_take {A B n : Nat} (hB : B ≤ n) :
    ((List.range n).drop A).take (B - A) = List.range' A (B - A) := by
  apply List.ext_getElem
  · simp only [List.length_take, List.length_drop, List.length_range, List.length_range']
    omega
  · intro i _ _
    simp only [List.getElem_take, List.getElem_drop, List.getElem_range, List.getElem_range',
      Nat.one_mul]

theorem map_range_eq_range' (a t len : Nat) :
    (List.range len).map (fun k : Nat => ((a : Int) + k * t).toNat) = List.range' a len t := by
  apply List.ext_getElem (by simp)
  intro i _ _
  rw [List.getElem_map, List.getElem_range, List.getElem_range',
    show ((a : Int) + i * t) = ((a + t * i : Nat) : Int) by push_cast; ring, Int.toNat_ofNat]

theorem sliceLength_of_pos {a b t : Nat} (ht : 0 < t) (hab : a ≤ b) :
    (sliceLength a b t).toNat = (b - a + t - 1) / t := by
  rw [sliceLength, if_neg (by omega)]
  by_cases h : a < b
  · rw [if_pos (by omega), show (b : Int) - a - 1 = ((b - a - 1 : Nat) : Int) by omega,
      ← Int.ofNat_tdiv, ← Int.ofNat_succ, Int.toNat_ofNat, show b - a + t - 1 = b - a - 1 + t by omega,
      Nat.add_div_right _ ht]
  · rw [if_neg (by omega), Nat.div_eq_of_lt (by omega)]
    rfl

theorem toSizeT_of_nonneg {x : Int} (h0 : 0 ≤ x) (h : x < 2^64) : toSizeT x = x.toNat := by
  rw [toSizeT, Int.emod_eq_of_lt h0 h]

theorem toSizeT_neg_one : toSizeT (-1) = 2^64 - 1 := rfl

section Slice
variable {n : Nat} {s : PySlice} {a b st len : Int}

theorem sliceIndex_bounds (x : Int) : -ssizeMax - 1 ≤ sliceIndex x ∧ sliceIndex x ≤ ssizeMax := by
  unfold sliceIndex ssizeMax
  omega

theorem unpack_step {x y : Int} (h : unpack s = some (x, y, st)) :
    st ≠ 0 ∧ -ssizeMax ≤ st ∧ st ≤ ssizeMax := by
  have hstep : -ssizeMax - 1 ≤ s.step.elim 1 sliceIndex ∧ s.step.elim 1 sliceIndex ≤ ssizeMax := by
    cases s.step with
    | none => simp only [Option.elim, ssizeMax]; omega
    | some x => exact sliceIndex_bounds x
  simp only [unpack] at h
  split_ifs at h with h0 <;>
  · simp only [Option.some.injEq, Prod.mk.injEq] at h
    obtain ⟨-, -, rfl⟩ := h
    unfold ssizeMax at *
    omega

theorem compute_eq_some (h : compute n s = some (a, b, st, len)) :
    ∃ x y, unpack s = some (x, y, st) ∧ a = adjustIndex n st x ∧ b = adjustIndex n st y ∧
      len = sliceLength a b st := by
  obtain ⟨⟨x, y, t⟩, hu, he⟩ := Option.map_eq_some'.1 h
  simp only [Prod.mk.injEq] at he
  obtain ⟨rfl, rfl, rfl, rfl⟩ := he
  exact ⟨x, y, hu, rfl, rfl, rfl⟩

theorem adjustIndex_of_pos (hst : 0 < st) (x : Int) :
    0 ≤ adjustIndex n st x ∧ adjustIndex n st x ≤ n := by
  unfold adjustIndex
  split_ifs <;> omega

theorem adjustIndex_of_neg (hst : st < 0) (x : Int) :
    -1 ≤ adjustIndex n st x ∧ adjustIndex n st x < n := by
  unfold adjustIndex
  split_ifs <;> omega

theorem getitemSlice_of_compute (h : compute n s = some (a, b, st, len)) :
    getitemSlice n s = if toSizeT a ≤ toSizeT b ∧ toSizeT b ≤ n then
      .ok (stride (toSizeT st) (((List.range n).drop (toSizeT a)).take (toSizeT b - toSizeT a)))
    else .error .slicePrecondition := by
  rw [getitemSlice, h]

theorem pySlice_of_compute (h : compute n s = some (a, b, st, len)) :
    pySlice n s = some ((List.range len.toNat).map fun k : Nat => (a + k * st).toNat) := by
  rw [pySlice, h]
  rfl

/-- With a positive step and `start ≤ stop`, the binding returns Python's slice. -/
theorem getitemSlice_eq_pySlice_of_pos (h : compute n s = some (a, b, st, len)) (hst : 0 < st)
    (hab : a ≤ b) (hn : n < 2^63) : ∃ l, getitemSlice n s = .ok l ∧ pySlice n s = some l := by
  obtain ⟨x, y, hu, ha, hb, hlen⟩ := compute_eq_some h
  have hA := adjustIndex_of_pos (n := n) hst x
  have hB := adjustIndex_of_pos (n := n) hst y
  have hs := unpack_step hu
  rw [← ha] at hA
  rw [← hb] at hB
  lift a to Nat using hA.1
  lift b to Nat using hB.1
  lift st to Nat using hst.le
  rw [getitemSlice_of_compute h, pySlice_of_compute h, toSizeT_of_nonneg (by omega) (by omega),
    toSizeT_of_nonneg (by omega) (by omega), toSizeT_of_nonneg (by omega) (by unfold ssizeMax at hs; omega),
    Int.toNat_ofNat, Int.toNat_ofNat, Int.toNat_ofNat, if_pos ⟨by omega, by omega⟩,
    range_drop_take (by omega), stride_range' (by omega), map_range_eq_range', hlen,
    sliceLength_of_pos (by omega) (by omega)]
  exact ⟨_, rfl, rfl⟩

theorem getitemSlice_odd_heights :
    ∃ l, getitemSlice 5 ⟨some 1, some 4, some 2⟩ = .ok l ∧ pySlice 5 ⟨some 1, some 4, some 2⟩ = some l :=
  getitemSlice_eq_pySlice_of_pos (show compute 5 ⟨some 1, some 4, some 2⟩ = some (1, 4, 2, 2) from rfl)
    (by decide) (by decide) (by decide)

/-- With a positive step and `start > stop`, Python's slice is empty and the binding
breaks the precondition of `view::slice`. -/
theorem getitemSlice_of_pos_gt (h : compute n s = some (a, b, st, len)) (hst : 0 < st)
    (hba : b < a) (hn : n < 2^63) :
    getitemSlice n s = .error .slicePrecondition ∧ pySlice n s = some [] := by
  obtain ⟨x, y, -, ha, hb, hlen⟩ := compute_eq_some h
  have hA := adjustIndex_of_pos (n := n) hst x
  have hB := adjustIndex_of_pos (n := n) hst y
  rw [← ha] at hA
  rw [← hb] at hB
  rw [getitemSlice_of_compute h, pySlice_of_compute h, toSizeT_of_nonneg hA.1 (by omega),
    toSizeT_of_nonneg hB.1 (by omega), if_neg (by omega), hlen, sliceLength, if_neg (by omega),
    if_neg (by omega)]
  exact ⟨rfl, rfl⟩

theorem getitemSlice_three_to_one :
    getitemSlice 4 ⟨some 3, some 1, some 2⟩ = .error .slicePrecondition ∧
      pySlice 4 ⟨some 3, some 1, some 2⟩ = some [] :=
  getitemSlice_of_pos_gt (show compute 4 ⟨some 3, some 1, some 2⟩ = some (3, 1, 2, 0) from rfl)
    (by decide) (by decide) (by decide)

/-- With a negative step, whenever Python's slice is nonempty the binding breaks the
precondition of `view::slice`: the normalised `start` lies above `stop`, or `stop` is `-1`
and reaches `view::slice` as `2^64 - 1`. -/
theorem getitemSlice_of_neg (h : compute n s = some (a, b, st, len)) (hst : st < 0)
    (hn : n < 2^63) {l : List Nat} (hl : pySlice n s = some l) (hne : l ≠ []) :
    getitemSlice n s = .error .slicePrecondition := by
  obtain ⟨x, y, -, ha, hb, hlen⟩ := compute_eq_some h
  have hA := adjustIndex_of_neg (n := n) hst x
  have hB := adjustIndex_of_neg (n := n) hst y
  rw [← ha] at hA
  rw [← hb] at hB
  have hba : b < a := by
    rw [pySlice_of_compute h] at hl
    obtain rfl := Option.some.inj hl
    rw [hlen, sliceLength, if_pos hst] at hne
    by_contra hab
    rw [if_neg hab] at hne
    exact hne rfl
  rw [getitemSlice_of_compute h, if_neg]
  rw [toSizeT_of_nonneg (by omega) (by omega)]
  rcases Int.lt_or_le b 0 with hb0 | hb0
  · rw [show b = -1 by omega, toSizeT_neg_one]
    omega
  · rw [toSizeT_of_nonneg hb0 (by omega)]
    omega

theorem getitemSlice_three_down_by_two :
    getitemSlice 4 ⟨some 3, some 0, some (-2)⟩ = .error .slicePrecondition :=
  getitemSlice_of_neg (show compute 4 ⟨some 3, some 0, some (-2)⟩ = some (3, 0, -2, 2) from rfl)
    (by decide) (by decide) (show pySlice 4 ⟨some 3, some 0, some (-2)⟩ = some [3, 1] from rfl)
    (by decide)

end Slice

/-- On a chain of three blocks, `chain[2:1]` and `chain[::-1]` break the precondition of
`view::slice`, where Python returns `[]` and the three blocks in reverse. -/
theorem getitemSlice_diverges :
    getitemSlice 3 ⟨some 2, some 1, none⟩ = .error .slicePrecondition ∧
      pySlice 3 ⟨some 2, some 1, none⟩ = some [] ∧
      getitemSlice 3 ⟨none, none, some (-1)⟩ = .error .slicePrecondition ∧
      pySlice 3 ⟨none, none, some (-1)⟩ = some [2, 1, 0] :=
  ⟨rfl, rfl, rfl, rfl⟩

end BlockSci.BlockchainPy
