import ArmciMpi.Transfer.Layout
import Mathlib.Algebra.BigOperators.Fin
import Mathlib.Algebra.Order.BigOperators.Ring.Finset
import Mathlib.Tactic.Ring

/-!
# The `int` arithmetic of strided transfers

Displacements, the number of blocks, the offsets in a packed buffer and the size
of that buffer are computed in `int`, where overflow is undefined. Here every
such expression is checked (`checkInt`). Where all of them fit, the functions are
those of exact integers (`stridedToIovInt_eq_ok`, `PackFits.write_eq`).

The indices are counted through in mixed radix with the innermost digit fastest.
-/

namespace ArmciMpi

open Lib Script

-- ------------------------------
-- The expressions
-- ------------------------------

/-- `for (i = 1, n = first; i < stride_levels+1; i++) n *= count[i]` -/
def productInt (first : Int) (count : Nat → Nat) (strideLevels : Nat) : Except String Int :=
  (List.range strideLevels).foldlM (fun n i => checkInt (n * count (i + 1))) first

/-- `nelem` and `nelem*mpi_datatype_size` of `PARMCI_AccS`. -/
def accSizeInt (typeSize : Nat) (count : Nat → Nat) (strideLevels : Nat) :
    Except String (Int × Int) := do
  let nelem ← productInt ((count 0 / typeSize : Nat) : Int) count strideLevels
  let bytes ← checkInt (nelem * typeSize)
  return (nelem, bytes)

/-- `disp += stride_ar[i]*idx[i]` for each level. -/
def dispInt : (Nat → Int) → Int → List Nat → Except String Int
  | _, disp, [] => .ok disp
  | stride, disp, n :: idx => do
    let term ← checkInt (stride 0 * n)
    let disp ← checkInt (disp + term)
    dispInt (fun i => stride (i + 1)) disp idx

def pointerDisps (srcStride dstStride : Nat → Int) (idx : List Nat) :
    Except String (Int × Int) := do
  let dispSrc ← dispInt srcStride 0 idx
  let dispDst ← dispInt dstStride 0 idx
  return (dispSrc, dispDst)

/-- The loop of `ARMCII_Strided_to_iov`. No index exceeds its count, so that their
increments fit. -/
def stridedLoopInt (visit : List Nat → Except String (Int × Int)) (counts : List Nat) :
    Nat → List Nat → Except String (List (Int × Int))
  | left, idx =>
    if idx.getLastD 0 < counts.getLastD 0 then
      match left with
      | 0 => .error "xfer < iov->ptr_array_len"
      | left + 1 => do
        let disp ← visit idx
        let rest ← stridedLoopInt visit counts left (nextIndex counts idx)
        return disp :: rest
    else if left = 0 then .ok []
    else .error "xfer == iov->ptr_array_len"

def stridedDisps (srcStride dstStride : Nat → Int) (count : Nat → Nat) (strideLevels : Nat)
    (len : Int) : Except String (List (Int × Int)) :=
  let counts := (List.range strideLevels).map fun i => count (i + 1)
  if strideLevels = 0 then .ok [(0, 0)]
  else
    stridedLoopInt (pointerDisps srcStride dstStride) counts len.toNat
      (List.replicate strideLevels 0)

def stridedToIovInt (src : Int) (srcStride : Nat → Int) (dst : Int) (dstStride : Nat → Int)
    (count : Nat → Nat) (strideLevels : Nat) : Except String Giov := do
  let len ← productInt 1 count strideLevels
  let disps ← stridedDisps srcStride dstStride count strideLevels len
  return { srcPtrArray := disps.map fun disp => src + disp.1
           dstPtrArray := disps.map fun disp => dst + disp.2
           bytes := count 0
           len_eq := by simp }

def armciWriteStridedInt (src : Int) (strideLevels : Nat) (srcStride : Nat → Int)
    (count : Nat → Nat) (dst : Int) : Script Act Unit := do
  let iov ← lift (stridedToIovInt src srcStride src srcStride count strideLevels)
  forEach (fun (block, i) => do
    let off ← lift (checkInt (i * count 0 : Nat))
    armciCopy block (dst + off) iov.bytes) iov.srcPtrArray.zipIdx

def armciReadStridedInt (dst : Int) (strideLevels : Nat) (dstStride : Nat → Int)
    (count : Nat → Nat) (src : Int) : Script Act Unit := do
  let iov ← lift (stridedToIovInt dst dstStride dst dstStride count strideLevels)
  forEach (fun (block, i) => do
    let off ← lift (checkInt (i * count 0 : Nat))
    armciCopy (src + off) block iov.bytes) iov.dstPtrArray.zipIdx

section
variable {stride srcStride dstStride : Nat → Int} {count : Nat → Nat} {levels k : Nat}

-- ------------------------------
-- Products
-- ------------------------------

def blockCount (count : Nat → Nat) (levels : Nat) : Nat := ∏ i ∈ Finset.range levels, count (i + 1)

theorem blockCount_succ (count : Nat → Nat) (levels : Nat) :
    blockCount count (levels + 1) = blockCount count levels * count (levels + 1) :=
  Finset.prod_range_succ _ _

theorem blockCount_eq (count : Nat → Nat) (levels : Nat) :
    blockCount count levels = (levelCounts count levels).prod := by
  induction levels with
  | zero => rfl
  | succ levels ih =>
    rw [blockCount_succ, ih, levelCounts, levelCounts, List.range_succ, List.map_append,
      List.prod_append]
    simp

theorem stridedProduct_succ (first : Nat) (count : Nat → Nat) (levels : Nat) :
    stridedProduct first count (levels + 1) =
      stridedProduct first count levels * count (levels + 1) := by
  rw [stridedProduct, List.range_succ, List.foldl_append]
  rfl

theorem stridedProduct_eq (first : Nat) (count : Nat → Nat) (levels : Nat) :
    stridedProduct first count levels = blockCount count levels * first := by
  induction levels with
  | zero => exact (Nat.one_mul first).symm
  | succ levels ih => rw [stridedProduct_succ, ih, blockCount_succ, Nat.mul_right_comm]

theorem productInt_succ (first : Int) (count : Nat → Nat) (levels : Nat) :
    productInt first count (levels + 1) =
      productInt first count levels >>= fun n => checkInt (n * count (levels + 1)) :=
  foldlM_range_succ _ _ _

theorem productInt_eq_ok {first : Nat} {r : Int} (hfirst : (first : Int) ≤ intMax)
    (hpos : ∀ i < levels, 1 ≤ count (i + 1)) :
    productInt first count levels = .ok r ↔
      (stridedProduct first count levels : Int) ≤ intMax ∧
        r = stridedProduct first count levels := by
  induction levels generalizing r with
  | zero =>
    rw [show stridedProduct first count 0 = first from rfl, and_iff_right hfirst]
    exact ⟨fun h => (Except.ok.inj h).symm, fun h => congrArg Except.ok h.symm⟩
  | succ levels ih =>
    have hle := Nat.le_mul_of_pos_right (stridedProduct first count levels)
      (hpos levels (by omega))
    simp only [productInt_succ, except_bind_eq_ok, checkInt_eq_ok, ih fun i hi => hpos i (by omega),
      stridedProduct_succ, Int.natCast_mul]
    constructor
    · rintro ⟨_, ⟨-, rfl⟩, hfits, rfl⟩
      exact ⟨hfits.2, rfl⟩
    · rintro ⟨hfits, rfl⟩
      rw [← Int.natCast_mul] at hfits ⊢
      exact ⟨_, ⟨by omega, rfl⟩, inInt_of_nonneg (by omega) hfits, rfl⟩

/-- `iov->ptr_array_len` -/
theorem blockCountInt_eq_ok {r : Int} (hpos : ∀ i < levels, 1 ≤ count (i + 1)) :
    productInt 1 count levels = .ok r ↔
      (blockCount count levels : Int) ≤ intMax ∧ r = blockCount count levels := by
  have hone : ((1 : Nat) : Int) ≤ intMax := by decide
  have hlen := productInt_eq_ok (r := r) hone hpos
  rwa [stridedProduct_eq, Nat.mul_one] at hlen

-- ------------------------------
-- Displacements
-- ------------------------------

def DispFits : (Nat → Int) → Int → List Nat → Prop
  | _, _, [] => True
  | stride, disp, n :: idx => InInt (stride 0 * n) ∧ InInt (disp + stride 0 * n) ∧
    DispFits (fun i => stride (i + 1)) (disp + stride 0 * n) idx

theorem dispInt_eq_ok {disp r : Int} {idx : List Nat} :
    dispInt stride disp idx = .ok r ↔
      DispFits stride disp idx ∧ r = disp + indexDisp stride idx := by
  induction idx generalizing stride disp with
  | nil => simp [dispInt, DispFits, indexDisp, eq_comm]
  | cons n idx ih =>
    simp only [dispInt, except_bind_eq_ok, checkInt_eq_ok, ih, DispFits, indexDisp_cons]
    constructor
    · rintro ⟨_, ⟨hterm, rfl⟩, _, ⟨hsum, rfl⟩, hrest, rfl⟩
      exact ⟨⟨hterm, hsum, hrest⟩, Int.add_assoc _ _ _⟩
    · rintro ⟨⟨hterm, hsum, hrest⟩, rfl⟩
      exact ⟨_, ⟨hterm, rfl⟩, _, ⟨hsum, rfl⟩, hrest, (Int.add_assoc _ _ _).symm⟩

theorem pointerDisps_eq_ok {idx : List Nat} {r : Int × Int} :
    pointerDisps srcStride dstStride idx = .ok r ↔
      (DispFits srcStride 0 idx ∧ DispFits dstStride 0 idx) ∧
        r = (indexDisp srcStride idx, indexDisp dstStride idx) := by
  simp only [pointerDisps, except_bind_eq_ok, dispInt_eq_ok, Int.zero_add, pure, Except.pure,
    Except.ok.injEq]
  constructor
  · rintro ⟨_, ⟨hsrc, rfl⟩, _, ⟨hdst, rfl⟩, rfl⟩
    exact ⟨⟨hsrc, hdst⟩, rfl⟩
  · rintro ⟨⟨hsrc, hdst⟩, rfl⟩
    exact ⟨_, ⟨hsrc, rfl⟩, _, ⟨hdst, rfl⟩, rfl⟩

-- ------------------------------
-- Mixed radix
-- ------------------------------

/-- The digit of level `i` in the `n`-th index. -/
def digit (count : Nat → Nat) (i n : Nat) : Nat := n / blockCount count i % count (i + 1)

/-- The `n`-th index. -/
def nthIndex (count : Nat → Nat) (levels n : Nat) : List Nat :=
  (List.range levels).map fun i => digit count i n

theorem digit_zero (count : Nat → Nat) (n : Nat) : digit count 0 n = n % count 1 := by
  simp [digit, blockCount]

theorem blockCount_inner (count : Nat → Nat) (levels : Nat) :
    blockCount count (levels + 1) = count 1 * blockCount (fun i => count (i + 1)) levels := by
  rw [blockCount, Finset.prod_range_succ', Nat.mul_comm]
  rfl

theorem digit_succ (count : Nat → Nat) (i n : Nat) :
    digit count (i + 1) n = digit (fun j => count (j + 1)) i (n / count 1) := by
  rw [digit, digit, blockCount_inner, Nat.div_div_eq_div_mul]

theorem nthIndex_succ (count : Nat → Nat) (levels n : Nat) :
    nthIndex count (levels + 1) n =
      n % count 1 :: nthIndex (fun i => count (i + 1)) levels (n / count 1) := by
  rw [nthIndex, List.range_succ_eq_map, List.map_cons, List.map_map, digit_zero]
  refine congrArg (_ :: ·) (List.map_congr_left fun i _ => ?_)
  exact digit_succ count i n

theorem digits_eq_nthIndex {n : Nat} (hn : n < blockCount count levels) :
    digits (levelCounts count levels) n = nthIndex count levels n := by
  induction levels generalizing count n with
  | zero => rfl
  | succ levels ih =>
    rw [blockCount_inner] at hn
    rw [levelCounts_succ, nthIndex_succ]
    cases levels with
    | zero =>
      have hmod : n % count 1 = n := Nat.mod_eq_of_lt (by simpa [blockCount] using hn)
      rw [hmod]
      rfl
    | succ levels =>
      rw [← ih (Nat.div_lt_of_lt_mul hn), levelCounts_succ, digits]

theorem exists_unique_digits {d : Nat → Nat} (hd : ∀ i < levels, d i < count (i + 1)) :
    ∃! n, n < blockCount count levels ∧ ∀ i < levels, digit count i n = d i := by
  have hcount : blockCount count levels = ∏ i : Fin levels, count (i + 1) := Finset.prod_range _
  have hdigit : ∀ (n : Fin (∏ i : Fin levels, count (i + 1))) (i : Fin levels),
      (finPiFinEquiv.symm n i : Nat) = digit count i n := by
    intro n i
    rw [digit, blockCount, Finset.prod_range]
    rfl
  let f : (i : Fin levels) → Fin (count (i + 1)) := fun i => ⟨d i, hd i i.isLt⟩
  refine ⟨finPiFinEquiv f, ⟨?_, fun i hi => ?_⟩, ?_⟩
  · rw [hcount]
    exact (finPiFinEquiv f).isLt
  · rw [← hdigit _ ⟨i, hi⟩, Equiv.symm_apply_apply]
  · rintro n ⟨hn, hdigits⟩
    rw [hcount] at hn
    refine congrArg Fin.val ((Equiv.symm_apply_eq _).mp (?_ : _ = f) : ⟨n, hn⟩ = finPiFinEquiv f)
    funext i
    exact Fin.ext ((hdigit ⟨n, hn⟩ i).trans (hdigits i i.isLt))

-- ------------------------------
-- The vector
-- ------------------------------

theorem stridedLoopInt_of_ok (visit : List Nat → Except String (Int × Int)) {counts idx : List Nat}
    {left : Nat} {indices : List (List Nat)} (h : stridedLoop counts left idx = .ok indices) :
    stridedLoopInt visit counts left idx = indices.mapM visit := by
  induction left generalizing idx indices with
  | zero =>
    rw [stridedLoop] at h
    split at h
    · cases h
    · rename_i hlast
      obtain rfl := Except.ok.inj h
      rw [stridedLoopInt, if_neg hlast]
      rfl
  | succ left ih =>
    rw [stridedLoop] at h
    split at h
    · rename_i hlast
      obtain ⟨rest, hrest, heq⟩ := except_bind_eq_ok.mp h
      obtain rfl := Except.ok.inj heq
      rw [stridedLoopInt, if_pos hlast, List.mapM_cons]
      simp only [ih hrest]
    · cases h

theorem stridedIndices_eq_nthIndex (hpos : ∀ i < levels, 1 ≤ count (i + 1)) :
    stridedIndices count levels =
      .ok ((List.range (blockCount count levels)).map (nthIndex count levels)) := by
  cases levels with
  | zero => rfl
  | succ levels =>
    rw [stridedIndices_loop (fun i hi => hpos i (by omega)), blockCount_eq]
    refine congrArg Except.ok (List.map_congr_left fun n hn => digits_eq_nthIndex ?_)
    rw [blockCount_eq]
    exact List.mem_range.mp hn

theorem stridedDisps_eq (srcStride dstStride : Nat → Int) (hpos : ∀ i < levels, 1 ≤ count (i + 1)) :
    stridedDisps srcStride dstStride count levels (blockCount count levels) =
      ((List.range (blockCount count levels)).map (nthIndex count levels)).mapM
        (pointerDisps srcStride dstStride) := by
  have hindices := stridedIndices_eq_nthIndex hpos
  cases levels with
  | zero => rfl
  | succ levels =>
    rw [stridedIndices, if_neg (Nat.succ_ne_zero levels)] at hindices
    rw [stridedDisps, if_neg (Nat.succ_ne_zero levels), Int.toNat_natCast,
      ← stridedLoopInt_of_ok _ hindices, blockCount_eq]
    rfl

/-- The displacement of the index `d`, with all its products and sums, fits. -/
def SumsFit (stride : Nat → Int) (levels : Nat) (d : Nat → Nat) : Prop :=
  ∀ i < levels, InInt (stride i * d i) ∧ InInt (∑ j ∈ Finset.range (i + 1), stride j * d j)

def IndicesFit (stride : Nat → Int) (count : Nat → Nat) (levels : Nat) : Prop :=
  ∀ d : Nat → Nat, (∀ i < levels, d i < count (i + 1)) → SumsFit stride levels d

theorem indexDisp_map (stride : Nat → Int) (levels : Nat) (d : Nat → Nat) :
    indexDisp stride ((List.range levels).map d) = ∑ i ∈ Finset.range levels, stride i * d i := by
  induction levels generalizing stride d with
  | zero => rfl
  | succ levels ih =>
    rw [List.range_succ_eq_map, List.map_cons, List.map_map, indexDisp_cons, Finset.sum_range_succ',
      Int.add_comm]
    exact congrArg (· + _) (ih (fun i => stride (i + 1)) fun i => d (i + 1))

theorem dispFits_map {disp : Int} {d : Nat → Nat} :
    DispFits stride disp ((List.range levels).map d) ↔
      ∀ i < levels, InInt (stride i * d i) ∧
        InInt (disp + ∑ j ∈ Finset.range (i + 1), stride j * d j) := by
  induction levels generalizing stride disp d with
  | zero => simp [DispFits]
  | succ levels ih =>
    rw [List.range_succ_eq_map, List.map_cons, List.map_map, DispFits,
      show d ∘ Nat.succ = fun i => d (i + 1) from rfl, ih, Nat.forall_lt_succ_left, ← and_assoc]
    refine and_congr (by simp) (forall₂_congr fun i _ => and_congr Iff.rfl ?_)
    rw [Finset.sum_range_succ' _ (i + 1), Int.add_assoc, Int.add_comm (stride 0 * d 0)]

theorem indicesFit_iff (hpos : ∀ i < levels, 1 ≤ count (i + 1)) :
    IndicesFit stride count levels ↔
      ∀ n < blockCount count levels, DispFits stride 0 (nthIndex count levels n) := by
  have hsums : ∀ d, SumsFit stride levels d ↔ DispFits stride 0 ((List.range levels).map d) := by
    intro d
    rw [dispFits_map]
    simp only [Int.zero_add, SumsFit]
  constructor
  · intro hfits n _
    exact (hsums _).mp (hfits _ fun i hi => Nat.mod_lt _ (hpos i hi))
  · intro hfits d hd
    obtain ⟨n, ⟨hn, hdigits⟩, -⟩ := exists_unique_digits hd
    have hindex : nthIndex count levels n = (List.range levels).map d :=
      List.map_congr_left fun i hi => hdigits i (List.mem_range.mp hi)
    rw [hsums, ← hindex]
    exact hfits n hn

theorem inInt_of_abs {x : Int} (h : |x| ≤ intMax) : InInt x := by
  obtain ⟨hlow, hhigh⟩ := abs_le.mp h
  unfold intMax at hlow
  exact ⟨by omega, hhigh⟩

theorem indicesFit_of_abs
    (h : ∑ i ∈ Finset.range levels, |stride i| * (count (i + 1) - 1) ≤ intMax) :
    IndicesFit stride count levels := by
  intro d hd i hi
  have hterm : ∀ j ∈ Finset.range levels,
      |stride j * d j| ≤ |stride j| * (count (j + 1) - 1) := by
    intro j hj
    have := hd j (Finset.mem_range.mp hj)
    rw [abs_mul, Nat.abs_cast]
    exact mul_le_mul_of_nonneg_left (by omega) (abs_nonneg _)
  have hsum : ∀ s ⊆ Finset.range levels, |∑ j ∈ s, stride j * d j| ≤ intMax := by
    intro s hs
    calc |∑ j ∈ s, stride j * d j| ≤ ∑ j ∈ s, |stride j * d j| := Finset.abs_sum_le_sum_abs _ _
      _ ≤ ∑ j ∈ Finset.range levels, |stride j * d j| :=
        Finset.sum_le_sum_of_subset_of_nonneg hs fun j _ _ => abs_nonneg _
      _ ≤ ∑ j ∈ Finset.range levels, |stride j| * (count (j + 1) - 1) := Finset.sum_le_sum hterm
      _ ≤ intMax := h
  have hone := hsum {i} (Finset.singleton_subset_iff.mpr (Finset.mem_range.mpr hi))
  rw [Finset.sum_singleton] at hone
  exact ⟨inInt_of_abs hone, inInt_of_abs (hsum _ (Finset.range_subset_range.mpr hi))⟩

theorem stridedDisps_eq_ok {disps : List (Int × Int)} (hpos : ∀ i < levels, 1 ≤ count (i + 1)) :
    stridedDisps srcStride dstStride count levels (blockCount count levels) = .ok disps ↔
      (IndicesFit srcStride count levels ∧ IndicesFit dstStride count levels) ∧
        disps = ((List.range (blockCount count levels)).map (nthIndex count levels)).map
          fun idx => (indexDisp srcStride idx, indexDisp dstStride idx) := by
  rw [stridedDisps_eq srcStride dstStride hpos, mapM_eq_ok_iff fun _ _ => pointerDisps_eq_ok,
    indicesFit_iff hpos, indicesFit_iff hpos]
  simp only [List.forall_mem_map, List.mem_range, forall_and]

/-- The vector is that of exact integers, and there is one when everything computed
for it fits. -/
theorem stridedToIovInt_eq_ok {src dst : Int} {iov : Giov}
    (hpos : ∀ i < levels, 1 ≤ count (i + 1)) :
    stridedToIovInt src srcStride dst dstStride count levels = .ok iov ↔
      ((blockCount count levels : Int) ≤ intMax ∧ IndicesFit srcStride count levels ∧
        IndicesFit dstStride count levels) ∧
      stridedToIov src srcStride dst dstStride count levels = .ok iov := by
  simp only [stridedToIovInt, stridedToIov, except_bind_eq_ok, blockCountInt_eq_ok hpos,
    stridedIndices_eq_nthIndex hpos, Except.ok.injEq]
  constructor
  · rintro ⟨_, ⟨hlen, rfl⟩, disps, hdisps, hiov⟩
    obtain ⟨hfits, rfl⟩ := (stridedDisps_eq_ok hpos).mp hdisps
    refine ⟨⟨hlen, hfits⟩, _, rfl, ?_⟩
    rw [← hiov]
    simp only [List.map_map]
    rfl
  · rintro ⟨⟨hlen, hfits⟩, _, rfl, hiov⟩
    refine ⟨_, ⟨hlen, rfl⟩, _, (stridedDisps_eq_ok hpos).mpr ⟨hfits, rfl⟩, ?_⟩
    rw [← hiov]
    simp only [List.map_map]
    rfl

/-- The `n`-th pointers are those of the `n`-th index. -/
theorem stridedToIov_eq_digits (src dst : Int) (srcStride dstStride : Nat → Int)
    (hpos : ∀ i < levels, 1 ≤ count (i + 1)) :
    ∃ iov, stridedToIov src srcStride dst dstStride count levels = .ok iov ∧ iov.bytes = count 0 ∧
      iov.srcPtrArray = (List.range (blockCount count levels)).map
        (fun n => src + ∑ i ∈ Finset.range levels, srcStride i * digit count i n) ∧
      iov.dstPtrArray = (List.range (blockCount count levels)).map
        (fun n => dst + ∑ i ∈ Finset.range levels, dstStride i * digit count i n) := by
  have hptrs : ∀ (base : Int) (stride : Nat → Int),
      ((List.range (blockCount count levels)).map (nthIndex count levels)).map
          (fun idx => base + indexDisp stride idx) =
        (List.range (blockCount count levels)).map fun n =>
          base + ∑ i ∈ Finset.range levels, stride i * digit count i n := by
    intro base stride
    rw [List.map_map]
    exact List.map_congr_left fun n _ => congrArg (base + ·) (indexDisp_map stride levels _)
  exact ⟨_, by rw [stridedToIov, stridedIndices_eq_nthIndex hpos]; rfl, rfl, hptrs src srcStride,
    hptrs dst dstStride⟩

/-- `ARMCII_Strided_to_iov` names each index once, the innermost level fastest. -/
theorem strided_iov_enumerates (src dst : Int) (srcStride dstStride : Nat → Int)
    (count : Nat → Nat) (levels : Nat) (hpos : ∀ i < levels, 1 ≤ count (i + 1))
    (hlen : (blockCount count levels : Int) ≤ intMax) (hsrc : IndicesFit srcStride count levels)
    (hdst : IndicesFit dstStride count levels) :
    ∃ iov, stridedToIovInt src srcStride dst dstStride count levels = .ok iov ∧
      iov.bytes = count 0 ∧ iov.ptrArrayLen = ∏ i ∈ Finset.range levels, count (i + 1) ∧
      (∀ k < iov.ptrArrayLen,
        iov.srcPtrArray[k]? =
          some (src + ∑ i ∈ Finset.range levels, srcStride i * digit count i k) ∧
        iov.dstPtrArray[k]? =
          some (dst + ∑ i ∈ Finset.range levels, dstStride i * digit count i k)) ∧
      ∀ d : Nat → Nat, (∀ i < levels, d i < count (i + 1)) →
        ∃! k, k < iov.ptrArrayLen ∧ ∀ i < levels, digit count i k = d i := by
  obtain ⟨iov, hok, hbytes, hsrcs, hdsts⟩ := stridedToIov_eq_digits src dst srcStride dstStride hpos
  have hcount : iov.ptrArrayLen = blockCount count levels := by
    rw [Giov.ptrArrayLen, hsrcs, List.length_map, List.length_range]
  refine ⟨iov, (stridedToIovInt_eq_ok hpos).mpr ⟨⟨hlen, hsrc, hdst⟩, hok⟩, hbytes, hcount,
    fun k hk => ?_, fun d hd => ?_⟩
  · rw [hcount] at hk
    simp [hsrcs, hdsts, hk]
  · rw [hcount]
    exact exists_unique_digits hd

theorem strided_iov_enumerates_back :
    ∃ iov, stridedToIovInt 1000 (fun i => if i = 0 then -16 else 100) 0 (fun i => 8 * i)
        (fun i => i + 1) 2 = .ok iov ∧ iov.ptrArrayLen = 6 ∧
      iov.srcPtrArray[3]? = some (1000 - 16 + 100) := by
  obtain ⟨iov, hok, -, hlen, hptrs, -⟩ := strided_iov_enumerates 1000 0
    (fun i => if i = 0 then -16 else 100) (fun i => 8 * i) (fun i => i + 1) 2 (fun i _ => by omega)
    (by decide) (indicesFit_of_abs (by decide)) (indicesFit_of_abs (by decide))
  rw [show ∏ i ∈ Finset.range 2, (i + 1 + 1) = 6 from rfl] at hlen
  refine ⟨iov, hok, hlen, ?_⟩
  exact (hptrs 3 (by omega)).1.trans (by decide)

-- ------------------------------
-- Packing
-- ------------------------------

theorem packed_eq (buf : Int) (blocks : List Int) (size : Nat) :
    packed buf blocks size = blocks.zipIdx.map fun p => (p.1, buf + (p.2 * size : Nat)) := by
  rw [packed, contigBufs, List.zip_map_right, List.zipIdx_eq_zip_range']
  simp [List.range_eq_range', Prod.map]

theorem forEach_packed (copy : Int → Int → Script Act Unit) (buf : Int) {blocks : List Int}
    {size : Nat} (hoff : ∀ i < blocks.length, ((i * size : Nat) : Int) ≤ intMax) :
    forEach (fun (block, i) => do
        let off ← lift (checkInt (i * size : Nat))
        copy block (buf + off)) blocks.zipIdx =
      forEach (fun (block, slot) => copy block slot) (packed buf blocks size) := by
  rw [packed_eq]
  refine forEach_map fun (block, i) hmem => ?_
  have hi : i < blocks.length := List.snd_lt_of_mem_zipIdx hmem
  have hcheck : checkInt (i * size : Nat) = .ok ((i * size : Nat) : Int) :=
    checkInt_eq_ok.mpr ⟨inInt_of_nonneg (by omega) (hoff i hi), rfl⟩
  dsimp only
  rw [hcheck, lift_ok_bind]

structure PackFits (stride : Nat → Int) (count : Nat → Nat) (levels : Nat) : Prop where
  pos : ∀ i < levels, 1 ≤ count (i + 1)
  len : (blockCount count levels : Int) ≤ intMax
  disps : IndicesFit stride count levels
  offsets : ∀ i < blockCount count levels, ((i * count 0 : Nat) : Int) ≤ intMax

theorem PackFits.iov (hfits : PackFits stride count levels) (base : Int) :
    ∃ iov, stridedToIovInt base stride base stride count levels = .ok iov ∧
      stridedToIov base stride base stride count levels = .ok iov ∧ iov.bytes = count 0 ∧
      iov.srcPtrArray.length = blockCount count levels ∧
      iov.dstPtrArray.length = blockCount count levels := by
  obtain ⟨iov, hok, hbytes, hsrc, hdst⟩ := stridedToIov_eq_digits base base stride stride hfits.pos
  refine ⟨iov, (stridedToIovInt_eq_ok hfits.pos).mpr ⟨⟨hfits.len, hfits.disps, hfits.disps⟩, hok⟩,
    hok, hbytes, ?_, ?_⟩
  · rw [hsrc, List.length_map, List.length_range]
  · rw [hdst, List.length_map, List.length_range]

theorem PackFits.write_eq (hfits : PackFits stride count levels) (src buf : Int) :
    armciWriteStridedInt src levels stride count buf =
      armciWriteStrided src levels stride count buf := by
  obtain ⟨iov, hint, hok, -, hlen, -⟩ := hfits.iov src
  rw [armciWriteStridedInt, armciWriteStrided, hint, hok, lift_ok_bind, lift_ok_bind]
  exact forEach_packed (fun block slot => armciCopy block slot iov.bytes) buf (by
    rw [hlen]
    exact hfits.offsets)

theorem PackFits.read_eq (hfits : PackFits stride count levels) (dst buf : Int) :
    armciReadStridedInt dst levels stride count buf =
      armciReadStrided dst levels stride count buf := by
  obtain ⟨iov, hint, hok, -, -, hlen⟩ := hfits.iov dst
  rw [armciReadStridedInt, armciReadStrided, hint, hok, lift_ok_bind, lift_ok_bind]
  exact forEach_packed (fun block slot => armciCopy slot block iov.bytes) buf (by
    rw [hlen]
    exact hfits.offsets)

-- ------------------------------
-- Correct specifications
-- ------------------------------

def lastDisp (stride : Nat → Int) (count : Nat → Nat) (levels : Nat) : Int :=
  ∑ i ∈ Finset.range levels, stride i * (count (i + 1) - 1)

theorem lastDisp_succ (stride : Nat → Int) (count : Nat → Nat) (levels : Nat) :
    lastDisp stride count (levels + 1) =
      lastDisp stride count levels + stride levels * (count (levels + 1) - 1) :=
  Finset.sum_range_succ _ _

theorem StridedOk.indicesFit_iff (hok : StridedOk stride count levels k) :
    IndicesFit stride count levels ↔ lastDisp stride count levels ≤ intMax := by
  constructor
  · intro hfits
    cases levels with
    | zero =>
      rw [lastDisp, Finset.sum_range_zero]
      decide
    | succ levels =>
      have hlast := (hfits (fun i => count (i + 1) - 1)
        (fun i hi => Nat.sub_lt (hok.level_pos i hi) Nat.one_pos) levels (by omega)).2.2
      refine le_of_eq_of_le (Finset.sum_congr rfl fun i hi => ?_) hlast
      rw [Int.natCast_sub (hok.level_pos i (Finset.mem_range.mp hi))]
      rfl
  · intro hlast
    refine indicesFit_of_abs (le_of_eq_of_le (Finset.sum_congr rfl fun i hi => ?_) hlast)
    rw [abs_of_pos (hok.stride_pos (Finset.mem_range.mp hi))]

theorem StridedOk.packed_le_stride (hok : StridedOk stride count (levels + 1) k) :
    (blockCount count levels * count 0 : Int) ≤ stride levels := by
  induction levels with
  | zero =>
    have := hok.block_le (by omega)
    simpa [blockCount] using this
  | succ levels ih =>
    have hprev := ih (hok.mono (by omega))
    calc (blockCount count (levels + 1) * count 0 : Int)
        = count (levels + 1) * (blockCount count levels * count 0) := by
          rw [blockCount_succ]
          push_cast
          ring
      _ ≤ count (levels + 1) * stride levels := Int.mul_le_mul_of_nonneg_left hprev (by omega)
      _ ≤ stride (levels + 1) := hok.nested levels (by omega)

theorem StridedOk.packed_le (hok : StridedOk stride count levels k) :
    (blockCount count levels * count 0 : Int) ≤ lastDisp stride count levels + count 0 := by
  induction levels with
  | zero => simp [blockCount, lastDisp]
  | succ levels ih =>
    have hprev := ih (hok.mono (by omega))
    have hone := hok.level_pos levels (by omega)
    have hrest : 0 ≤ (count (levels + 1) : Int) - 1 := by omega
    have hstep := Int.mul_le_mul_of_nonneg_right hok.packed_le_stride hrest
    calc (blockCount count (levels + 1) * count 0 : Int)
        = blockCount count levels * count 0 +
            blockCount count levels * count 0 * (count (levels + 1) - 1) := by
          rw [blockCount_succ]
          push_cast
          ring
      _ ≤ lastDisp stride count (levels + 1) + count 0 := by
          rw [lastDisp_succ]
          omega

theorem StridedOk.packFits (hok : StridedOk stride count levels k)
    (hlen : (blockCount count levels : Int) ≤ intMax)
    (hlast : lastDisp stride count levels ≤ intMax) : PackFits stride count levels where
  pos := hok.level_pos
  len := hlen
  disps := hok.indicesFit_iff.mpr hlast
  offsets := by
    intro i hi
    have hpacked := hok.packed_le
    have hle : ((i + 1) * count 0 : Nat) ≤ blockCount count levels * count 0 :=
      Nat.mul_le_mul_right _ hi
    rw [Nat.succ_mul] at hle
    omega

theorem lastDisp_mem (hpos : ∀ i < levels, 1 ≤ count (i + 1)) :
    lastDisp stride count levels ∈ stridedBlocks stride count levels := by
  induction levels with
  | zero => exact List.mem_singleton.mpr rfl
  | succ levels ih =>
    have hcount := hpos levels (by omega)
    have hcast : ((count (levels + 1) - 1 : Nat) : Int) = count (levels + 1) - 1 := by omega
    rw [lastDisp_succ, Int.add_comm, stridedBlocks, List.mem_flatMap]
    refine ⟨count (levels + 1) - 1, List.mem_range.mpr (by omega), ?_⟩
    rw [← hcast]
    exact List.mem_map_of_mem (ih fun i hi => hpos i (by omega))

structure IntsExact (src : Int) (srcStride : Nat → Int) (dst : Int) (dstStride : Nat → Int)
    (count : Nat → Nat) (levels typeSize : Nat) : Prop where
  iov : stridedToIovInt src srcStride dst dstStride count levels =
    stridedToIov src srcStride dst dstStride count levels
  write : ∀ buf, armciWriteStridedInt src levels srcStride count buf =
    armciWriteStrided src levels srcStride count buf
  read : ∀ buf, armciReadStridedInt dst levels dstStride count buf =
    armciReadStrided dst levels dstStride count buf
  size : productInt (count 0) count levels = .ok ((blockCount count levels * count 0 : Nat) : Int)
  acc : accSizeInt typeSize count levels =
    .ok (((blockCount count levels * (count 0 / typeSize) : Nat) : Int),
      ((blockCount count levels * count 0 : Nat) : Int))

theorem accSizeInt_eq_ok {r : Int × Int} (hint : (count 0 : Int) ≤ intMax)
    (hok : StridedOk stride count levels k) :
    accSizeInt k count levels = .ok r ↔
      ((blockCount count levels * count 0 : Nat) : Int) ≤ intMax ∧
        r = (((blockCount count levels * (count 0 / k) : Nat) : Int),
          ((blockCount count levels * count 0 : Nat) : Int)) := by
  have hdiv : count 0 / k ≤ count 0 := Nat.div_le_self _ _
  have hfirst : ((count 0 / k : Nat) : Int) ≤ intMax := by omega
  have hbytes : ((blockCount count levels * (count 0 / k) : Nat) : Int) * k =
      (blockCount count levels * count 0 : Nat) := by
    rw [← Int.natCast_mul, Nat.mul_assoc, Nat.div_mul_cancel hok.count_dvd]
  have hle : blockCount count levels * (count 0 / k) ≤ blockCount count levels * count 0 :=
    Nat.mul_le_mul_left _ hdiv
  simp only [accSizeInt, except_bind_eq_ok, productInt_eq_ok hfirst hok.level_pos,
    stridedProduct_eq, checkInt_eq_ok]
  constructor
  · rintro ⟨_, ⟨-, rfl⟩, _, ⟨hfits, rfl⟩, heq⟩
    rw [hbytes] at hfits heq
    exact ⟨hfits.2, (Except.ok.inj heq).symm⟩
  · rintro ⟨hfits, rfl⟩
    refine ⟨_, ⟨by omega, rfl⟩, _, ⟨?_, rfl⟩, ?_⟩
    · rw [hbytes]
      exact inInt_of_nonneg (by omega) hfits
    · rw [hbytes]
      rfl

theorem StridedOk.span_le (hok : StridedOk stride count levels k) {off size : Int}
    (hin : ∀ d ∈ stridedBlocks stride count levels, 0 ≤ off + d ∧ off + d + count 0 ≤ size) :
    lastDisp stride count levels + count 0 ≤ size := by
  obtain ⟨ds, hds⟩ := hok.head
  have hfirst := (hin 0 (by rw [hds]; exact List.mem_cons_self)).1
  have hlast := (hin _ (lastDisp_mem hok.level_pos)).2
  omega

section
variable {src dst : Int} (hint : (count 0 : Int) ≤ intMax)
  (hsrc : StridedOk srcStride count levels k) (hdst : StridedOk dstStride count levels k)
include hint hsrc hdst

theorem IntsExact.fits (hexact : IntsExact src srcStride dst dstStride count levels k) :
    ((blockCount count levels * count 0 : Nat) : Int) ≤ intMax ∧
      lastDisp srcStride count levels ≤ intMax ∧ lastDisp dstStride count levels ≤ intMax := by
  obtain ⟨iov, hok, -⟩ := stridedToIov_eq_digits src dst srcStride dstStride hsrc.level_pos
  obtain ⟨⟨-, hsrcFits, hdstFits⟩, -⟩ :=
    (stridedToIovInt_eq_ok hsrc.level_pos).mp (hexact.iov.trans hok)
  have hsize := ((productInt_eq_ok hint hsrc.level_pos).mp hexact.size).1
  rw [stridedProduct_eq] at hsize
  exact ⟨hsize, hsrc.indicesFit_iff.mp hsrcFits, hdst.indicesFit_iff.mp hdstFits⟩

theorem intsExact_of_fits (hsize : ((blockCount count levels * count 0 : Nat) : Int) ≤ intMax)
    (hsrcLast : lastDisp srcStride count levels ≤ intMax)
    (hdstLast : lastDisp dstStride count levels ≤ intMax) :
    IntsExact src srcStride dst dstStride count levels k := by
  have hlen : (blockCount count levels : Int) ≤ intMax := by
    have := Nat.le_mul_of_pos_right (blockCount count levels) (hsrc.pos 0 (by omega))
    omega
  obtain ⟨iov, hok, -⟩ := stridedToIov_eq_digits src dst srcStride dstStride hsrc.level_pos
  have hfits := And.intro (hsrc.indicesFit_iff.mpr hsrcLast) (hdst.indicesFit_iff.mpr hdstLast)
  exact {
    iov := ((stridedToIovInt_eq_ok hsrc.level_pos).mpr ⟨⟨hlen, hfits⟩, hok⟩).trans hok.symm
    write := (hsrc.packFits hlen hsrcLast).write_eq src
    read := (hdst.packFits hlen hdstLast).read_eq dst
    size := (productInt_eq_ok hint hsrc.level_pos).mpr (by
      rw [stridedProduct_eq]
      exact ⟨hsize, rfl⟩)
    acc := (accSizeInt_eq_ok hint hsrc).mpr ⟨hsize, rfl⟩ }

end

end

/-- The arithmetic of a correct specification is exact when the packed data and the
displacements of both last blocks fit an `int`, and so inside slices that small. -/
theorem strided_ints_exact_iff (src dst : Int) (srcStride dstStride : Nat → Int)
    (count : Nat → Nat) (levels typeSize : Nat) (hint : (count 0 : Int) ≤ intMax)
    (hsrc : StridedOk srcStride count levels typeSize)
    (hdst : StridedOk dstStride count levels typeSize) :
    (IntsExact src srcStride dst dstStride count levels typeSize ↔
      ((blockCount count levels * count 0 : Nat) : Int) ≤ intMax ∧
        lastDisp srcStride count levels ≤ intMax ∧ lastDisp dstStride count levels ≤ intMax) ∧
    ∀ srcOff dstOff size : Int,
      (∀ d ∈ stridedBlocks srcStride count levels, 0 ≤ srcOff + d ∧ srcOff + d + count 0 ≤ size) →
      (∀ d ∈ stridedBlocks dstStride count levels, 0 ≤ dstOff + d ∧ dstOff + d + count 0 ≤ size) →
      size ≤ intMax → IntsExact src srcStride dst dstStride count levels typeSize := by
  refine ⟨⟨IntsExact.fits hint hsrc hdst, fun ⟨hsize, hsrcLast, hdstLast⟩ =>
    intsExact_of_fits hint hsrc hdst hsize hsrcLast hdstLast⟩, ?_⟩
  intro srcOff dstOff size hsrcIn hdstIn hsmall
  have hsrcSpan := hsrc.span_le hsrcIn
  have hdstSpan := hdst.span_le hdstIn
  have hpacked := hsrc.packed_le
  exact intsExact_of_fits hint hsrc hdst (by omega) (by omega) (by omega)

def rowCounts (bytes rows : Nat) : Nat → Nat
  | 0 => bytes
  | _ + 1 => rows

theorem stridedOk_rows {bytes rows k : Nat} {stride : Int} (hbytes : 1 ≤ bytes) (hrows : 1 ≤ rows)
    (hcount : k ∣ bytes) (hstride : (k : Int) ∣ stride) (hle : (bytes : Int) ≤ stride) :
    StridedOk (fun _ => stride) (rowCounts bytes rows) 1 k where
  pos := fun i _ => by cases i <;> assumption
  count_dvd := hcount
  stride_dvd := fun _ => hstride
  block_le := fun _ => hle
  dvd := fun _ _ => dvd_refl stride
  nested := fun i hi => absurd hi (by omega)

/-- Four rows a gigabyte apart lie in a slice of four gigabytes, but the displacement
of the third is beyond `INT_MAX`. So is the packed size of 4096 adjacent rows of a
megabyte. -/
theorem strided_ints_overflow :
    (StridedOk (fun _ => 2 ^ 30) (rowCounts 8 4) 1 8 ∧
      (∀ d ∈ stridedBlocks (fun _ => 2 ^ 30) (rowCounts 8 4) 1, 0 ≤ d ∧ d + 8 ≤ 2 ^ 32) ∧
      stridedToIovInt 0 (fun _ => 2 ^ 30) 0 (fun _ => 2 ^ 30) (rowCounts 8 4) 1 =
        .error "integer overflow") ∧
    (StridedOk (fun _ => 2 ^ 20) (rowCounts (2 ^ 20) (2 ^ 12)) 1 1 ∧
      productInt (2 ^ 20) (rowCounts (2 ^ 20) (2 ^ 12)) 1 = .error "integer overflow") := by
  refine ⟨⟨?_, by decide, rfl⟩, ?_, rfl⟩
  · exact stridedOk_rows (by decide) (by decide) (by decide) (by decide) (by decide)
  · exact stridedOk_rows (by decide) (by decide) (by decide) (by decide) (by decide)

theorem strided_ints_exact_iff_rows :
    IntsExact 0 (fun _ => 64) 0 (fun _ => 128) (rowCounts 8 4) 1 8 := by
  refine (strided_ints_exact_iff 0 0 (fun _ => 64) (fun _ => 128) (rowCounts 8 4) 1 8 (by decide)
    ?_ ?_).1.mpr (by decide)
  · exact stridedOk_rows (by decide) (by decide) (by decide) (by decide) (by decide)
  · exact stridedOk_rows (by decide) (by decide) (by decide) (by decide) (by decide)

end ArmciMpi
