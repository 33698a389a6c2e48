import ArmciMpi.Transfer.StridedInts

/-!
# The iterator over a strided transfer

`ARMCII_Strided_to_iov_iter` keeps the strides, the counts and the odometer of
`ARMCII_Strided_to_iov` in one allocation of `4*stride_levels+1` ints, and
`ARMCII_Iov_iter_next` computes one pair of pointers at a time. The constructor
copies the counts of all levels but the last one. What the memory held there
before is the count at which the iteration ends, and without levels the counter is
compared with itself (`iov_iter_yields_iff`).
-/

namespace ArmciMpi

open Lib Script

/-- Ints allocated with `malloc`. -/
structure IntArray where
  len : Nat
  cell : Nat → Int

namespace IntArray

def load (a : IntArray) (p : Int) : Except String Int :=
  if 0 ≤ p ∧ p < a.len then .ok (a.cell p.toNat) else .error "invalid read"

def put (a : IntArray) (p : Nat) (v : Int) : IntArray :=
  { a with cell := fun q => if q = p then v else a.cell q }

def store (a : IntArray) (p : Nat) (v : Int) : Except String IntArray :=
  if p < a.len then .ok (a.put p v) else .error "invalid write"

variable {a : IntArray} {p : Nat}

theorem load_eq {q : Int} (hq : q = p) (hp : p < a.len) : a.load q = .ok (a.cell p) := by
  subst hq
  rw [load, if_pos ⟨by omega, by omega⟩, Int.toNat_natCast]

theorem store_eq (hp : p < a.len) (v : Int) : a.store p v = .ok (a.put p v) := if_pos hp

@[simp] theorem put_len (a : IntArray) (p : Nat) (v : Int) : (a.put p v).len = a.len := rfl

theorem put_self (a : IntArray) (p : Nat) (v : Int) : (a.put p v).cell p = v := if_pos rfl

theorem put_ne {q : Nat} (h : q ≠ p) (v : Int) : (a.put p v).cell q = a.cell q := if_neg h

end IntArray

/-- `armcii_iov_iter_t`; the arrays are positions in `base_ptr`. -/
structure IovIter where
  src : Int
  dst : Int
  strideLevels : Nat
  basePtr : IntArray
  srcStrideAr : Nat
  dstStrideAr : Nat
  count : Nat
  wasContiguous : Bool
  idx : Nat

namespace IovIter

def copyLevel (srcStride dstStride : Nat → Int) (count : Nat → Nat) (it : IovIter) (i : Nat) :
    Except String IovIter := do
  let a ← it.basePtr.store (it.srcStrideAr + i) (srcStride i)
  let a ← a.store (it.dstStrideAr + i) (dstStride i)
  let a ← a.store (it.count + i) (count i)
  let a ← a.store (it.idx + i) 0
  return { it with basePtr := a }

def hasNext (it : IovIter) : Except String Bool := do
  let last ← it.basePtr.load (it.idx + (it.strideLevels - 1 : Int))
  let count ← it.basePtr.load (it.count + it.strideLevels : Nat)
  return last < count && !it.wasContiguous

def addLevel (it : IovIter) (disp : Int × Int) (i : Nat) : Except String (Int × Int) := do
  let n ← it.basePtr.load (it.idx + i : Nat)
  let srcStride ← it.basePtr.load (it.srcStrideAr + i : Nat)
  let srcTerm ← checkInt (srcStride * n)
  let dispSrc ← checkInt (disp.1 + srcTerm)
  let dstStride ← it.basePtr.load (it.dstStrideAr + i : Nat)
  let dstTerm ← checkInt (dstStride * n)
  let dispDst ← checkInt (disp.2 + dstTerm)
  return (dispSrc, dispDst)

/-- `disp_src` and `disp_dst` -/
def disps (it : IovIter) : Except String (Int × Int) :=
  (List.range it.strideLevels).foldlM it.addLevel (0, 0)

def carryLevel (it : IovIter) (a : IntArray) (i : Nat) : Except String IntArray := do
  let n ← a.load (it.idx + i : Nat)
  let c ← a.load (it.count + (i + 1) : Nat)
  if c ≤ n then
    let a ← a.store (it.idx + i) 0
    let m ← a.load (it.idx + (i + 1) : Nat)
    a.store (it.idx + (i + 1)) (m + 1)
  else return a

/-- The step of the odometer. No index exceeds its count, so that the increments fit. -/
def advance (it : IovIter) : Except String IovIter := do
  let n ← it.basePtr.load (it.idx : Nat)
  let a ← it.basePtr.store it.idx (n + 1)
  let a ← (List.range (it.strideLevels - 1)).foldlM it.carryLevel a
  return { it with basePtr := a }

/-- `ARMCII_Iov_iter_next` with the addresses of the variables for the pointers:
what it returns, the pointers, and the iterator. -/
def next (it : IovIter) (src dst : Int) : Except String (Bool × (Int × Int) × IovIter) := do
  if !(← it.hasNext) then return (false, (0, 0), it)
  if it.strideLevels = 0 then return (true, (src, dst), { it with wasContiguous := true })
  let disp ← it.disps
  let it' ← it.advance
  return (true, (it.src + disp.1, it.dst + disp.2), it')

/-- `while (ARMCII_Iov_iter_has_next(it)) ARMCII_Iov_iter_next(it, &src, &dst)` ends after
these pointers. -/
inductive Yields (srcVar dstVar : Int) : IovIter → List (Int × Int) → Prop
  | done {it : IovIter} (h : it.hasNext = .ok false) : Yields srcVar dstVar it []
  | step {it it' : IovIter} {ptrs : Int × Int} {rest : List (Int × Int)}
      (h : it.hasNext = .ok true) (hnext : it.next srcVar dstVar = .ok (true, ptrs, it'))
      (hrest : Yields srcVar dstVar it' rest) : Yields srcVar dstVar it (ptrs :: rest)

end IovIter

/-- `ARMCII_Strided_to_iov_iter`; `fresh` is what the allocated memory holds. -/
def stridedToIovIter (fresh : Nat → Int) (src : Int) (srcStride : Nat → Int) (dst : Int)
    (dstStride : Nat → Int) (count : Nat → Nat) (strideLevels : Nat) : Except String IovIter :=
  (List.range strideLevels).foldlM (IovIter.copyLevel srcStride dstStride count)
    { src, dst, strideLevels
      basePtr := ⟨4 * strideLevels + 1, fresh⟩
      srcStrideAr := 0 * strideLevels
      dstStrideAr := 1 * strideLevels
      count := 2 * strideLevels
      wasContiguous := false
      idx := 3 * strideLevels + 1 }

-- ------------------------------
-- The layout
-- ------------------------------

/-- The iterator over the memory `a`. -/
def iterOn (src dst : Int) (levels : Nat) (a : IntArray) : IovIter where
  src := src
  dst := dst
  strideLevels := levels
  basePtr := a
  srcStrideAr := 0 * levels
  dstStrideAr := 1 * levels
  count := 2 * levels
  wasContiguous := false
  idx := 3 * levels + 1

/-- What the memory of an iterator holds at the index `idx`. The count of the last
level is `top`. -/
structure Holds (srcStride dstStride : Nat → Int) (count : Nat → Nat) (levels : Nat) (top : Int)
    (a : IntArray) (idx : List Nat) : Prop where
  len : a.len = 4 * levels + 1
  idx_len : idx.length = levels
  src : ∀ i < levels, a.cell i = srcStride i
  dst : ∀ i < levels, a.cell (levels + i) = dstStride i
  counts : ∀ i < levels, a.cell (2 * levels + i) = count i
  top : a.cell (3 * levels) = top
  idx : ∀ i < levels, a.cell (3 * levels + 1 + i) = (idx.getD i 0 : Nat)

section
variable {src dst : Int} {srcStride dstStride : Nat → Int} {count : Nat → Nat} {levels : Nat}
  {top : Int} {a : IntArray} {idx : List Nat} {srcVar dstVar : Int}

theorem Holds.store (h : Holds srcStride dstStride count levels top a idx) {i : Nat}
    (hi : i < levels) (n : Nat) : ∃ a', a.store (3 * levels + 1 + i) n = .ok a' ∧
      Holds srcStride dstStride count levels top a' (idx.set i n) := by
  refine ⟨_, IntArray.store_eq (by rw [h.len]; omega) n, ?_⟩
  exact {
    len := h.len
    idx_len := by rw [List.length_set, h.idx_len]
    src := fun j hj => by rw [IntArray.put_ne (by omega), h.src j hj]
    dst := fun j hj => by rw [IntArray.put_ne (by omega), h.dst j hj]
    counts := fun j hj => by rw [IntArray.put_ne (by omega), h.counts j hj]
    top := by rw [IntArray.put_ne (by omega), h.top]
    idx := fun j hj => by
      rw [List.getD_eq_getElem?_getD, List.getElem?_set, h.idx_len]
      by_cases hij : j = i
      · rw [hij, IntArray.put_self, if_pos rfl, if_pos hi]
        rfl
      · rw [IntArray.put_ne (by omega), if_neg (Ne.symm hij), h.idx j hj,
          List.getD_eq_getElem?_getD] }

theorem copyLevel_eq {n : Nat} (hlen : a.len = 4 * levels + 1) (hn : n < levels) :
    (iterOn src dst levels a).copyLevel srcStride dstStride count n =
      .ok (iterOn src dst levels ((((a.put n (srcStride n)).put (levels + n) (dstStride n)).put
        (2 * levels + n) (count n)).put (3 * levels + 1 + n) 0)) := by
  simp only [IovIter.copyLevel, iterOn, Nat.zero_mul, Nat.one_mul, Nat.zero_add, bind, Except.bind]
  rw [IntArray.store_eq (by omega)]
  dsimp only
  rw [IntArray.store_eq (by rw [IntArray.put_len]; omega)]
  dsimp only
  rw [IntArray.store_eq (by simp only [IntArray.put_len]; omega)]
  dsimp only
  rw [IntArray.store_eq (by simp only [IntArray.put_len]; omega)]
  rfl

/-- What the first `n` iterations have copied into memory that held `fresh`. -/
structure Copied (srcStride dstStride : Nat → Int) (count : Nat → Nat) (levels : Nat)
    (fresh : Nat → Int) (n : Nat) (a : IntArray) : Prop where
  len : a.len = 4 * levels + 1
  top : a.cell (3 * levels) = fresh (3 * levels)
  cells : ∀ i < n, a.cell i = srcStride i ∧ a.cell (levels + i) = dstStride i ∧
    a.cell (2 * levels + i) = count i ∧ a.cell (3 * levels + 1 + i) = 0

theorem Copied.copyLevel {fresh : Nat → Int} {n : Nat}
    (h : Copied srcStride dstStride count levels fresh n a) (hn : n < levels) :
    ∃ a', (iterOn src dst levels a).copyLevel srcStride dstStride count n =
        .ok (iterOn src dst levels a') ∧
      Copied srcStride dstStride count levels fresh (n + 1) a' := by
  refine ⟨_, copyLevel_eq h.len hn, h.len, ?_, fun i hi => ?_⟩
  · simp (disch := omega) only [IntArray.put_ne, h.top]
  · rcases Nat.lt_succ_iff_lt_or_eq.mp hi with hlt | rfl
    · simpa (disch := omega) only [IntArray.put_ne] using h.cells i hlt
    · simp (disch := omega) only [IntArray.put_ne, IntArray.put_self, and_self]

theorem stridedToIovIter_holds (fresh : Nat → Int) (src dst : Int) (srcStride dstStride : Nat → Int)
    (count : Nat → Nat) (levels : Nat) :
    ∃ a, stridedToIovIter fresh src srcStride dst dstStride count levels =
        .ok (iterOn src dst levels a) ∧
      Holds srcStride dstStride count levels (fresh (3 * levels)) a (List.replicate levels 0) := by
  have hstart : Copied srcStride dstStride count levels fresh 0 ⟨4 * levels + 1, fresh⟩ :=
    ⟨rfl, rfl, fun i hi => absurd hi (Nat.not_lt_zero i)⟩
  obtain ⟨_, hok, a, rfl, hcopied⟩ := foldlM_range_ok (n := levels)
    (f := IovIter.copyLevel srcStride dstStride count)
    (I := fun n it => ∃ a, it = iterOn src dst levels a ∧
      Copied srcStride dstStride count levels fresh n a) ⟨_, rfl, hstart⟩ (by
    rintro n hn _ ⟨a, rfl, hcopied⟩
    obtain ⟨a', hok, hcopied⟩ := hcopied.copyLevel hn
    exact ⟨_, hok, a', rfl, hcopied⟩)
  have hcells := hcopied.cells
  refine ⟨a, hok, hcopied.len, List.length_replicate, fun i hi => (hcells i hi).1,
    fun i hi => (hcells i hi).2.1, fun i hi => (hcells i hi).2.2.1, hcopied.top, fun i hi => ?_⟩
  rw [(hcells i hi).2.2.2]
  simp

-- ------------------------------
-- A step
-- ------------------------------

theorem Holds.load_idx (h : Holds srcStride dstStride count levels top a idx) {i : Nat}
    (hi : i < levels) : a.load (3 * levels + 1 + i : Nat) = .ok (idx.getD i 0 : Nat) := by
  rw [IntArray.load_eq rfl (by rw [h.len]; omega), h.idx i hi]

theorem Holds.idx_eq (h : Holds srcStride dstStride count levels top a idx) :
    (List.range levels).map (fun i => idx.getD i 0) = idx := by
  have hlen := h.idx_len
  refine List.ext_getElem (by simp [hlen]) fun i _ hi => ?_
  rw [List.getElem_map, List.getElem_range, List.getD_eq_getElem _ _ hi]

theorem Holds.hasNext {k : Nat} (h : Holds srcStride dstStride count (k + 1) top a idx) :
    (iterOn src dst (k + 1) a).hasNext = .ok (decide (((idx.getLastD 0 : Nat) : Int) < top)) := by
  have hlast : a.load ((3 * (k + 1) + 1 : Nat) + (((k + 1 : Nat) : Int) - 1)) =
      .ok (idx.getLastD 0 : Nat) := by
    rw [IntArray.load_eq (p := 3 * (k + 1) + 1 + k) (by omega) (by rw [h.len]; omega),
      h.idx k (by omega), List.getLastD_eq_getLast?, List.getLast?_eq_getElem?, h.idx_len,
      List.getD_eq_getElem?_getD]
    rfl
  have htop : a.load (2 * (k + 1) + (k + 1) : Nat) = .ok top := by
    rw [IntArray.load_eq (p := 3 * (k + 1)) (by omega) (by rw [h.len]; omega), h.top]
  simp only [IovIter.hasNext, iterOn, hlast, htop, bind, Except.bind, pure, Except.pure,
    Bool.not_false, Bool.and_true]

theorem Holds.addLevel (h : Holds srcStride dstStride count levels top a idx) {i : Nat}
    (hi : i < levels) {disp r : Int × Int} :
    (iterOn src dst levels a).addLevel disp i = .ok r ↔
      ((InInt (srcStride i * idx.getD i 0) ∧ InInt (disp.1 + srcStride i * idx.getD i 0)) ∧
        InInt (dstStride i * idx.getD i 0) ∧ InInt (disp.2 + dstStride i * idx.getD i 0)) ∧
      r = (disp.1 + srcStride i * idx.getD i 0, disp.2 + dstStride i * idx.getD i 0) := by
  have hsrc : a.load (0 * levels + i : Nat) = .ok (srcStride i) := by
    rw [IntArray.load_eq (p := i) (by omega) (by rw [h.len]; omega), h.src i hi]
  have hdst : a.load (1 * levels + i : Nat) = .ok (dstStride i) := by
    rw [IntArray.load_eq (p := levels + i) (by omega) (by rw [h.len]; omega), h.dst i hi]
  simp only [IovIter.addLevel, iterOn, except_bind_eq_ok, h.load_idx hi, hsrc, hdst, checkInt_eq_ok,
    Except.ok.injEq, pure, Except.pure]
  constructor
  · rintro ⟨_, rfl, _, rfl, _, ⟨hs, rfl⟩, _, ⟨hs', rfl⟩, _, rfl, _, ⟨hd, rfl⟩, _, ⟨hd', rfl⟩, rfl⟩
    exact ⟨⟨⟨hs, hs'⟩, hd, hd'⟩, rfl⟩
  · rintro ⟨⟨⟨hs, hs'⟩, hd, hd'⟩, rfl⟩
    exact ⟨_, rfl, _, rfl, _, ⟨hs, rfl⟩, _, ⟨hs', rfl⟩, _, rfl, _, ⟨hd, rfl⟩, _, ⟨hd', rfl⟩, rfl⟩

/-- The displacements of the first `n` levels. -/
theorem Holds.foldlM_addLevel (h : Holds srcStride dstStride count levels top a idx) {n : Nat}
    (hn : n ≤ levels) {r : Int × Int} :
    (List.range n).foldlM (iterOn src dst levels a).addLevel (0, 0) = .ok r ↔
      (SumsFit srcStride n (fun i => idx.getD i 0) ∧
        SumsFit dstStride n (fun i => idx.getD i 0)) ∧
        r = (∑ i ∈ Finset.range n, srcStride i * idx.getD i 0,
          ∑ i ∈ Finset.range n, dstStride i * idx.getD i 0) := by
  induction n generalizing r with
  | zero => simp [SumsFit, pure, Except.pure, eq_comm]
  | succ n ih =>
    simp only [foldlM_range_succ, except_bind_eq_ok, ih (by omega), h.addLevel (by omega : n < _),
      SumsFit, Nat.forall_lt_succ_right, Finset.sum_range_succ]
    constructor
    · rintro ⟨_, ⟨⟨hs, hd⟩, rfl⟩, ⟨hs', hd'⟩, rfl⟩
      exact ⟨⟨⟨hs, hs'⟩, hd, hd'⟩, rfl⟩
    · rintro ⟨⟨⟨hs, hs'⟩, hd, hd'⟩, rfl⟩
      exact ⟨_, ⟨⟨hs, hd⟩, rfl⟩, ⟨hs', hd'⟩, rfl⟩

/-- The displacements are those of `ARMCII_Strided_to_iov` at the same index. -/
theorem Holds.disps (h : Holds srcStride dstStride count levels top a idx) {r : Int × Int} :
    (iterOn src dst levels a).disps = .ok r ↔ pointerDisps srcStride dstStride idx = .ok r := by
  refine (h.foldlM_addLevel (Nat.le_refl levels)).trans ?_
  conv_rhs => rw [← h.idx_eq]
  simp only [pointerDisps_eq_ok, dispFits_map, indexDisp_map, Int.zero_add, SumsFit]

theorem Holds.carryLevel {k i x y c : Nat} {pre rest : List Nat}
    (h : Holds srcStride dstStride count (k + 1) top a (pre ++ x :: y :: rest)) (src dst : Int)
    (hpre : pre.length = i) (hc : count (i + 1) = c) (cs : List Nat) :
    ∃ a' z idx', (iterOn src dst (k + 1) a).carryLevel a i = .ok a' ∧
      carry (x :: y :: rest) (c :: cs) = z :: carry idx' cs ∧
      Holds srcStride dstStride count (k + 1) top a' ((pre ++ [z]) ++ idx') := by
  subst hpre
  have hlen := h.idx_len
  simp only [List.length_append, List.length_cons] at hlen
  have hx : a.load (3 * (k + 1) + 1 + pre.length : Nat) = .ok (x : Nat) := by
    simpa using h.load_idx (i := pre.length) (by omega)
  have hcount : a.load (2 * (k + 1) + (pre.length + 1) : Nat) = .ok (c : Nat) := by
    rw [IntArray.load_eq rfl (by rw [h.len]; omega), h.counts _ (by omega), hc]
  by_cases hle : c ≤ x
  · obtain ⟨b, hb, hzero⟩ := h.store (i := pre.length) (by omega) 0
    obtain ⟨a', ha', hnext⟩ := hzero.store (i := pre.length + 1) (by omega) (y + 1)
    have hy : b.load (3 * (k + 1) + 1 + (pre.length + 1) : Nat) = .ok (y : Nat) := by
      simpa using hzero.load_idx (i := pre.length + 1) (by omega)
    refine ⟨a', 0, (y + 1) :: rest, ?_, by rw [carry, if_pos hle], by simpa using hnext⟩
    refine except_bind_eq_ok.mpr ⟨_, hx, except_bind_eq_ok.mpr ⟨_, hcount, ?_⟩⟩
    rw [if_pos (by omega)]
    exact except_bind_eq_ok.mpr ⟨b, hb, except_bind_eq_ok.mpr ⟨_, hy, ha'⟩⟩
  · refine ⟨a, x, y :: rest, ?_, by rw [carry, if_neg hle], by simpa using h⟩
    refine except_bind_eq_ok.mpr ⟨_, hx, except_bind_eq_ok.mpr ⟨_, hcount, ?_⟩⟩
    rw [if_neg (by omega)]
    rfl

def endCounts (count : Nat → Nat) (k : Nat) (top : Int) : List Nat :=
  levelCounts count k ++ [top.toNat]

theorem endCounts_drop (count : Nat → Nat) (top : Int) {i k : Nat} (hi : i < k) :
    (endCounts count k top).drop i = count (i + 1) :: (endCounts count k top).drop (i + 1) := by
  have hlen : i < (endCounts count k top).length := by simp [endCounts, levelCounts]; omega
  rw [List.drop_eq_getElem_cons hlen]
  simp [endCounts, levelCounts, List.getElem_append_left, hi]

/-- Before iteration `i` of the carry loop the first `i` digits are final and the others still
to be carried. -/
def Carried (srcStride dstStride : Nat → Int) (count : Nat → Nat) (k : Nat) (top : Int)
    (final : List Nat) (i : Nat) (a : IntArray) : Prop :=
  ∃ pre idx, pre.length = i ∧ pre ++ carry idx ((endCounts count k top).drop i) = final ∧
    Holds srcStride dstStride count (k + 1) top a (pre ++ idx)

theorem Carried.step {k i : Nat} {final : List Nat} {b : IntArray}
    (h : Carried srcStride dstStride count k top final i b) (hi : i < k) (src dst : Int) :
    ∃ b', (iterOn src dst (k + 1) a).carryLevel b i = .ok b' ∧
      Carried srcStride dstStride count k top final (i + 1) b' := by
  obtain ⟨pre, idx, hpre, hfinal, hholds⟩ := h
  have hlen := hholds.idx_len
  rw [List.length_append, hpre] at hlen
  obtain ⟨x, y, rest, rfl⟩ : ∃ x y rest, idx = x :: y :: rest := by
    match idx, hlen with
    | [], hlen => simp at hlen; omega
    | [x], hlen => simp at hlen; omega
    | x :: y :: rest, _ => exact ⟨x, y, rest, rfl⟩
  obtain ⟨b', z, idx, hok, hcarry, hholds⟩ := hholds.carryLevel src dst hpre rfl
    ((endCounts count k top).drop (i + 1))
  refine ⟨b', hok, pre ++ [z], idx, by simp [hpre], ?_, hholds⟩
  rw [← hfinal, endCounts_drop count top hi, hcarry, List.append_assoc]
  rfl

/-- The odometer makes the step of `ARMCII_Strided_to_iov`. -/
theorem Holds.advance {k : Nat} (h : Holds srcStride dstStride count (k + 1) top a idx)
    (src dst : Int) :
    ∃ a', (iterOn src dst (k + 1) a).advance = .ok (iterOn src dst (k + 1) a') ∧
      Holds srcStride dstStride count (k + 1) top a' (nextIndex (endCounts count k top) idx) := by
  obtain ⟨n, rest, rfl⟩ : ∃ n rest, idx = n :: rest :=
    List.exists_cons_of_length_eq_add_one h.idx_len
  have hn : a.load (3 * (k + 1) + 1 : Nat) = .ok (n : Nat) := h.load_idx (i := 0) (by omega)
  obtain ⟨b, hb, hset⟩ := h.store (i := 0) (by omega) (n + 1)
  have hstart : Carried srcStride dstStride count k top
      (carry ((n + 1) :: rest) (endCounts count k top)) 0 b :=
    ⟨[], (n + 1) :: rest, rfl, rfl, hset⟩
  obtain ⟨a', hloop, pre, last, hlen, hfinal, hholds⟩ :=
    foldlM_range_ok (f := (iterOn src dst (k + 1) a).carryLevel) hstart
      fun i hi b hb => hb.step hi src dst
  have hone := hholds.idx_len
  rw [List.length_append, hlen] at hone
  obtain ⟨z, rfl⟩ := List.length_eq_one_iff.mp (by omega : last.length = 1)
  refine ⟨a', ?_, ?_⟩
  · exact except_bind_eq_ok.mpr ⟨_, hn, except_bind_eq_ok.mpr ⟨b, hb,
      except_bind_eq_ok.mpr ⟨a', hloop, rfl⟩⟩⟩
  · rw [nextIndex, ← hfinal]
    simpa [carry] using hholds

/-- `ARMCII_Iov_iter_next` with something left returns the pointers of the index. -/
theorem Holds.next {k : Nat} (h : Holds srcStride dstStride count (k + 1) top a idx)
    (src dst srcVar dstVar : Int) (hleft : ((idx.getLastD 0 : Nat) : Int) < top) :
    ∃ a', Holds srcStride dstStride count (k + 1) top a' (nextIndex (endCounts count k top) idx) ∧
      ∀ r, (iterOn src dst (k + 1) a).next srcVar dstVar = .ok r ↔
        ∃ disp, pointerDisps srcStride dstStride idx = .ok disp ∧
          r = (true, (src + disp.1, dst + disp.2), iterOn src dst (k + 1) a') := by
  obtain ⟨a', hadv, hholds⟩ := h.advance src dst
  refine ⟨a', hholds, fun r => ?_⟩
  have hnext : (iterOn src dst (k + 1) a).next srcVar dstVar =
      (iterOn src dst (k + 1) a).disps >>= fun disp =>
        .ok (true, (src + disp.1, dst + disp.2), iterOn src dst (k + 1) a') := by
    rw [IovIter.next, h.hasNext, decide_eq_true hleft, hadv]
    rfl
  rw [hnext, except_bind_eq_ok]
  simp only [h.disps, Except.ok.injEq, eq_comm (b := r)]

/-- The iterator runs through the loop of `ARMCII_Strided_to_iov` with the counts it
has. -/
theorem Holds.yields_iff {k : Nat} (h : Holds srcStride dstStride count (k + 1) top a idx)
    {ptrs : List (Int × Int)} :
    (iterOn src dst (k + 1) a).Yields srcVar dstVar ptrs ↔
      ∃ disps, stridedLoopInt (pointerDisps srcStride dstStride) (endCounts count k top)
        ptrs.length idx = .ok disps ∧
          ptrs = disps.map fun disp => (src + disp.1, dst + disp.2) := by
  have hlast : ∀ n : Nat, n < (endCounts count k top).getLastD 0 ↔ (n : Int) < top := by
    intro n
    rw [endCounts, List.getLastD_concat]
    omega
  induction ptrs generalizing a idx with
  | nil =>
    rw [List.length_nil, stridedLoopInt]
    by_cases hleft : ((idx.getLastD 0 : Nat) : Int) < top
    · rw [if_pos ((hlast _).mpr hleft)]
      refine iff_of_false ?_ (by simp)
      rintro (hdone | _)
      rw [h.hasNext, decide_eq_true hleft] at hdone
      cases hdone
    · rw [if_neg fun hlt => hleft ((hlast _).mp hlt), if_pos rfl]
      refine iff_of_true (.done ?_) ⟨[], rfl, rfl⟩
      rw [h.hasNext, decide_eq_false hleft]
  | cons ptr ptrs ih =>
    rw [List.length_cons, stridedLoopInt]
    by_cases hleft : ((idx.getLastD 0 : Nat) : Int) < top
    · obtain ⟨a', hholds, hnext⟩ := h.next src dst srcVar dstVar hleft
      rw [if_pos ((hlast _).mpr hleft)]
      simp only [except_bind_eq_ok, pure, Except.pure, Except.ok.injEq]
      constructor
      · rintro (_ | ⟨-, hok, hrest⟩)
        obtain ⟨disp, hdisp, heq⟩ := (hnext _).mp hok
        simp only [Prod.mk.injEq, true_and] at heq
        obtain ⟨rfl, rfl⟩ := heq
        obtain ⟨disps, hloop, rfl⟩ := (ih hholds).mp hrest
        exact ⟨_, ⟨disp, hdisp, disps, hloop, rfl⟩, rfl⟩
      · rintro ⟨_, ⟨disp, hdisp, disps, hloop, rfl⟩, heq⟩
        obtain ⟨rfl, rfl⟩ := List.cons.inj heq
        refine .step ?_ ((hnext _).mpr ⟨disp, hdisp, rfl⟩) ((ih hholds).mpr ⟨disps, hloop, rfl⟩)
        rw [h.hasNext, decide_eq_true hleft]
    · rw [if_neg fun hlt => hleft ((hlast _).mp hlt), if_neg (Nat.succ_ne_zero _)]
      refine iff_of_false ?_ (by simp)
      rintro (_ | ⟨htrue, -, -⟩)
      rw [h.hasNext, decide_eq_false hleft] at htrue
      cases htrue

-- ------------------------------
-- Whole runs
-- ------------------------------

theorem stridedLoopInt_left {visit : List Nat → Except String (Int × Int)} {cs : List Nat}
    (hcs : cs ≠ []) (hpos : ∀ c ∈ cs, 0 < c) {left n : Nat} {disps : List (Int × Int)}
    (hn : n ≤ cs.prod) (h : stridedLoopInt visit cs left (digits cs n) = .ok disps) :
    n + left = cs.prod := by
  induction left generalizing n disps with
  | zero =>
    rw [stridedLoopInt] at h
    split at h
    · cases h
    · rename_i hlast
      rw [digits_last hcs hpos] at hlast
      omega
  | succ left ih =>
    rw [stridedLoopInt] at h
    split at h
    · rename_i hlast
      rw [digits_last hcs hpos] at hlast
      obtain ⟨_, -, h⟩ := except_bind_eq_ok.mp h
      obtain ⟨_, h, -⟩ := except_bind_eq_ok.mp h
      rw [nextIndex_digits hpos] at h
      have := ih hlast h
      omega
    · cases h

theorem top_eq_of_loop {visit : List Nat → Except String (Int × Int)} {k : Nat}
    {disps : List (Int × Int)} (hpos : ∀ i < k + 1, 1 ≤ count (i + 1))
    (h : stridedLoopInt visit (endCounts count k top) (blockCount count (k + 1))
      (List.replicate (k + 1) 0) = .ok disps) : top = count (k + 1) := by
  have hstart : List.replicate (k + 1) 0 = digits (endCounts count k top) 0 := by
    rw [digits_zero]
    simp [endCounts, levelCounts]
  have hcounts : ∀ c ∈ levelCounts count k, 0 < c := by
    intro c hc
    obtain ⟨i, hi, rfl⟩ := List.mem_map.mp hc
    exact hpos i (by have := List.mem_range.mp hi; omega)
  have hinner : 0 < blockCount count k := by
    rw [blockCount_eq]
    exact List.prod_pos hcounts
  have htotal : 0 < blockCount count (k + 1) := by
    rw [blockCount_succ]
    exact Nat.mul_pos hinner (hpos k (by omega))
  by_cases hzero : top.toNat = 0
  · obtain ⟨left, hleft⟩ := Nat.exists_eq_succ_of_ne_zero (Nat.ne_of_gt htotal)
    rw [hleft, stridedLoopInt, endCounts, List.getLastD_concat, hzero,
      if_neg (Nat.not_lt_zero _)] at h
    cases h
  · have hall : ∀ c ∈ endCounts count k top, 0 < c := by
      intro c hc
      rcases List.mem_append.mp hc with hc | hc
      · exact hcounts c hc
      · rw [List.mem_singleton.mp hc]
        omega
    rw [hstart] at h
    have hleft := stridedLoopInt_left (by simp [endCounts]) hall (Nat.zero_le _) h
    rw [endCounts, List.prod_append, List.prod_singleton, ← blockCount_eq, Nat.zero_add,
      blockCount_succ] at hleft
    have := Nat.eq_of_mul_eq_mul_left hinner hleft
    omega

theorem endCounts_self (count : Nat → Nat) (k : Nat) :
    endCounts count k (count (k + 1)) = levelCounts count (k + 1) := by
  rw [endCounts, levelCounts, levelCounts, List.range_succ, List.map_append]
  rfl

theorem hasNext_contiguous (hlen : a.len = 1) : (iterOn src dst 0 a).hasNext = .ok false := by
  have hlast : a.load (((3 * 0 + 1 : Nat) : Int) + ((0 : Nat) - 1 : Int)) = .ok (a.cell 0) :=
    IntArray.load_eq rfl (by omega)
  have hcount : a.load (2 * 0 + 0 : Nat) = .ok (a.cell 0) := IntArray.load_eq rfl (by omega)
  refine except_bind_eq_ok.mpr ⟨_, hlast, except_bind_eq_ok.mpr ⟨_, hcount, ?_⟩⟩
  simp [pure, Except.pure, iterOn]

end

/-- The iterator yields what `ARMCII_Strided_to_iov` stores if there are levels and the
allocated memory happened to hold the count of the last one. -/
theorem iov_iter_yields_iff (src dst : Int) (srcStride dstStride : Nat → Int)
    (count : Nat → Nat) (levels : Nat) (hpos : ∀ i < levels, 1 ≤ count (i + 1))
    (hlen : (blockCount count levels : Int) ≤ intMax) (hsrc : IndicesFit srcStride count levels)
    (hdst : IndicesFit dstStride count levels) (fresh : Nat → Int) (srcVar dstVar : Int) :
    ∃ it iov, stridedToIovIter fresh src srcStride dst dstStride count levels = .ok it ∧
      stridedToIovInt src srcStride dst dstStride count levels = .ok iov ∧
      (it.Yields srcVar dstVar (iov.srcPtrArray.zip iov.dstPtrArray) ↔
        levels ≠ 0 ∧ fresh (3 * levels) = count levels) := by
  obtain ⟨a, hit, hholds⟩ := stridedToIovIter_holds fresh src dst srcStride dstStride count levels
  have hdisps := (stridedDisps_eq_ok hpos).mpr ⟨⟨hsrc, hdst⟩, rfl⟩
  refine ⟨_, _, hit, except_bind_eq_ok.mpr ⟨_, (blockCountInt_eq_ok hpos).mpr ⟨hlen, rfl⟩,
    except_bind_eq_ok.mpr ⟨_, hdisps, rfl⟩⟩, ?_⟩
  rw [List.zip_map']
  cases levels with
  | zero =>
    refine iff_of_false ?_ fun h => h.1 rfl
    rintro (_ | ⟨htrue, -, -⟩)
    rw [hasNext_contiguous hholds.len] at htrue
    cases htrue
  | succ k =>
    rw [stridedDisps, if_neg (Nat.succ_ne_zero k), Int.toNat_natCast] at hdisps
    rw [hholds.yields_iff, and_iff_right (Nat.succ_ne_zero k)]
    simp only [List.length_map, List.length_range]
    constructor
    · rintro ⟨disps, hloop, -⟩
      exact top_eq_of_loop hpos hloop
    · intro htop
      rw [htop, endCounts_self]
      exact ⟨_, hdisps, rfl⟩

/-- The iterator over one block yields nothing, whatever the memory holds, and the iterator
over two rows yields nothing in memory that held zeros. -/
theorem iov_iter_stops_early :
    (∀ fresh : Nat → Int, ∃ it, stridedToIovIter fresh 4096 (fun _ => 0) 8192 (fun _ => 0)
      (fun _ => 8) 0 = .ok it ∧ it.hasNext = .ok false) ∧
    ∃ it, stridedToIovIter (fun _ => 0) 4096 (fun _ => 64) 8192 (fun _ => 64) (rowCounts 8 2) 1 =
      .ok it ∧ it.hasNext = .ok false := by
  refine ⟨fun fresh => ?_, _, rfl, rfl⟩
  obtain ⟨a, hit, hholds⟩ := stridedToIovIter_holds fresh 4096 8192 (fun _ => 0) (fun _ => 0)
    (fun _ => 8) 0
  exact ⟨_, hit, hasNext_contiguous hholds.len⟩

theorem iov_iter_yields_iff_rows :
    ∃ it, stridedToIovIter (fun _ => 2) 4096 (fun _ => 64) 8192 (fun _ => 128) (rowCounts 8 2) 1 =
      .ok it ∧ it.Yields 16 24 [(4096, 8192), (4160, 8320)] := by
  obtain ⟨it, iov, hit, hiov, hiff⟩ := iov_iter_yields_iff 4096 8192 (fun _ => 64) (fun _ => 128)
    (rowCounts 8 2) 1 (by decide) (by decide) (indicesFit_of_abs (by decide))
    (indicesFit_of_abs (by decide)) (fun _ => 2) 16 24
  have hrows : stridedToIovInt 4096 (fun _ => 64) 8192 (fun _ => 128) (rowCounts 8 2) 1 =
      .ok ⟨[4096, 4160], [8192, 8320], 8, rfl⟩ := rfl
  obtain rfl := Except.ok.inj (hrows.symm.trans hiov)
  exact ⟨it, hit, hiff.mpr (by decide)⟩

end ArmciMpi
