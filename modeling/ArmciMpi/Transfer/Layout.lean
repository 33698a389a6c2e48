import ArmciMpi.Transfer.Segments
import ArmciMpi.Transfer.Strided

/-!
# Where the blocks of a strided transfer are

`stridedBlocks` lists the blocks by nested loops, the outermost level first.
The odometer of `ARMCII_Strided_to_iov` visits them in this order
(`stridedToIov_eq`), and so do the elements of the subarray that
`ARMCII_Strided_to_dtype` builds for a correct specification
(`stridedToDtype_eq`), with levels that count only one left out.
-/

namespace ArmciMpi

open Lib Script

def stridedBlocks (stride : Nat → Int) (count : Nat → Nat) : Nat → List Int
  | 0 => [0]
  | k + 1 => (List.range (count (k + 1))).flatMap fun (j : Nat) =>
    (stridedBlocks stride count k).map (stride k * j + ·)

-- ------------------------------
-- The innermost level first
-- ------------------------------

theorem stridedBlocks_inner (stride : Nat → Int) (count : Nat → Nat) (k : Nat) :
    stridedBlocks stride count (k + 1) =
      (stridedBlocks (fun i => stride (i + 1)) (fun i => count (i + 1)) k).flatMap fun d =>
        (List.range (count 1)).map fun (j : Nat) => stride 0 * j + d := by
  induction k with
  | zero => simp [stridedBlocks, List.map_eq_flatMap]
  | succ k ih =>
    rw [stridedBlocks, ih]
    simp only [stridedBlocks, List.map_flatMap, List.map_map, List.flatMap_assoc, List.flatMap_map,
      Function.comp_def]
    refine List.flatMap_congr fun j _ => List.flatMap_congr fun d _ => ?_
    refine List.map_congr_left fun i _ => ?_
    omega

theorem range_mul_flatMap {α : Type} (f : Nat → α) (c n : Nat) :
    (List.range (n * c)).map f =
      (List.range n).flatMap fun m => (List.range c).map fun j => f (m * c + j) := by
  induction n with
  | zero => simp
  | succ n ih =>
    rw [Nat.succ_mul, List.range_add, List.map_append, ih, List.range_succ, List.flatMap_append,
      List.flatMap_singleton, List.map_map]
    rfl

-- ------------------------------
-- The odometer
-- ------------------------------

/-- The index after `n` steps: the outermost digit is not bounded. -/
def digits : List Nat → Nat → List Nat
  | [], _ => []
  | [_], n => [n]
  | c :: c' :: cs, n => n % c :: digits (c' :: cs) (n / c)

theorem digits_cons (c : Nat) (cs : List Nat) (n : Nat) :
    ∃ i idx, digits (c :: cs) n = i :: idx := by
  cases cs with
  | nil => exact ⟨n, [], rfl⟩
  | cons c' cs => exact ⟨_, _, rfl⟩

theorem carry_digits {cs : List Nat} (hpos : ∀ c ∈ cs, 0 < c) (n : Nat) :
    carry (digits cs n) cs = digits cs n := by
  induction cs generalizing n with
  | nil => rfl
  | cons c cs ih =>
    cases cs with
    | nil => rfl
    | cons c' cs =>
      have hlt := Nat.mod_lt n (hpos c List.mem_cons_self)
      have hrest := ih (fun d hd => hpos d (List.mem_cons_of_mem c hd)) (n / c)
      obtain ⟨j, idx, hidx⟩ := digits_cons c' cs (n / c)
      rw [hidx] at hrest
      rw [digits, hidx, carry, if_neg (by omega), hrest]

theorem succ_div_mod {c : Nat} (hc : 0 < c) (n : Nat) :
    (n + 1) / c = (if c ≤ n % c + 1 then n / c + 1 else n / c) ∧
      (n + 1) % c = if c ≤ n % c + 1 then 0 else n % c + 1 := by
  have hlt := Nat.mod_lt n hc
  have hdiv := Nat.mod_add_div n c
  rw [Nat.div_mod_unique hc]
  split
  · rw [Nat.mul_add]
    omega
  · omega

theorem nextIndex_digits {cs : List Nat} (hpos : ∀ c ∈ cs, 0 < c) (n : Nat) :
    nextIndex cs (digits cs n) = digits cs (n + 1) := by
  induction cs generalizing n with
  | nil => rfl
  | cons c cs ih =>
    cases cs with
    | nil => rfl
    | cons c' cs =>
      have hrest : ∀ d ∈ c' :: cs, 0 < d := fun d hd => hpos d (List.mem_cons_of_mem c hd)
      have hcarry := carry_digits hrest (n / c)
      have hnext := ih hrest (n / c)
      obtain ⟨j, idx, hidx⟩ := digits_cons c' cs (n / c)
      rw [hidx] at hcarry hnext
      obtain ⟨hdiv, hmod⟩ := succ_div_mod (hpos c List.mem_cons_self) n
      rw [digits, hidx, nextIndex, carry, digits, hdiv, hmod]
      split
      · rw [← hnext]
        rfl
      · rw [hcarry, hidx]

theorem digits_last {cs : List Nat} (hcs : cs ≠ []) (hpos : ∀ c ∈ cs, 0 < c) (n : Nat) :
    (digits cs n).getLastD 0 < cs.getLastD 0 ↔ n < cs.prod := by
  induction cs generalizing n with
  | nil => exact absurd rfl hcs
  | cons c cs ih =>
    cases cs with
    | nil => simp [digits]
    | cons c' cs =>
      have hrest := ih (by simp) (fun d hd => hpos d (List.mem_cons_of_mem c hd)) (n / c)
      obtain ⟨j, idx, hidx⟩ := digits_cons c' cs (n / c)
      rw [hidx] at hrest
      rw [digits, hidx, List.prod_cons]
      have hdiv : n / c < (c' :: cs).prod ↔ n < c * (c' :: cs).prod := by
        rw [Nat.div_lt_iff_lt_mul (hpos c List.mem_cons_self), Nat.mul_comm]
      rw [← hdiv, ← hrest]
      simp

/-- The loop of `ARMCII_Strided_to_iov` counts through the indices. -/
theorem stridedLoop_eq {cs : List Nat} (hcs : cs ≠ []) (hpos : ∀ c ∈ cs, 0 < c) (left n : Nat)
    (hleft : n + left = cs.prod) :
    stridedLoop cs left (digits cs n) = .ok ((List.range left).map fun i => digits cs (n + i)) := by
  induction left generalizing n with
  | zero =>
    rw [stridedLoop, if_neg (by rw [digits_last hcs hpos]; omega), if_pos rfl]
    rfl
  | succ left ih =>
    rw [stridedLoop, if_pos (by rw [digits_last hcs hpos]; omega)]
    rw [nextIndex_digits hpos, ih (n + 1) (by omega), List.range_succ_eq_map, List.map_cons,
      List.map_map]
    simp only [Function.comp_def, Nat.succ_eq_add_one, Nat.add_assoc, Nat.add_comm 1]
    rfl

theorem digits_zero (cs : List Nat) : digits cs 0 = List.replicate cs.length 0 := by
  induction cs with
  | nil => rfl
  | cons c cs ih =>
    cases cs with
    | nil => rfl
    | cons c' cs =>
      rw [digits, Nat.zero_mod, Nat.zero_div, ih]
      rfl

def levelCounts (count : Nat → Nat) (levels : Nat) : List Nat :=
  (List.range levels).map fun i => count (i + 1)

theorem levelCounts_succ (count : Nat → Nat) (k : Nat) :
    levelCounts count (k + 1) = count 1 :: levelCounts (fun i => count (i + 1)) k := by
  rw [levelCounts, List.range_succ_eq_map, List.map_cons, List.map_map]
  rfl

theorem indexDisp_cons (stride : Nat → Int) (i : Nat) (idx : List Nat) :
    indexDisp stride (i :: idx) = stride 0 * i + indexDisp (fun k => stride (k + 1)) idx := by
  simp [indexDisp, List.mapIdx_cons]

theorem indexDisp_digits (stride : Nat → Int) (count : Nat → Nat) (k : Nat)
    (hpos : ∀ i ≤ k, 1 ≤ count (i + 1)) :
    (List.range (levelCounts count (k + 1)).prod).map
        (fun n => indexDisp stride (digits (levelCounts count (k + 1)) n)) =
      stridedBlocks stride count (k + 1) := by
  induction k generalizing stride count with
  | zero => simp [levelCounts, digits, stridedBlocks, indexDisp, List.map_eq_flatMap]
  | succ k ih =>
    have hrest := ih (fun i => stride (i + 1)) (fun i => count (i + 1))
      fun i hi => hpos (i + 1) (by omega)
    have hc : 0 < count 1 := hpos 0 (by omega)
    rw [stridedBlocks_inner, ← hrest, levelCounts_succ]
    obtain ⟨c', cs, hcs⟩ : ∃ c' cs, levelCounts (fun i => count (i + 1)) (k + 1) = c' :: cs :=
      ⟨_, _, levelCounts_succ _ _⟩
    rw [hcs, List.prod_cons, Nat.mul_comm, range_mul_flatMap, List.flatMap_map]
    refine List.flatMap_congr fun m _ => List.map_congr_left fun j hj => ?_
    have hj' := List.mem_range.mp hj
    have hmod : (m * count 1 + j) % count 1 = j := by
      rw [Nat.add_comm, Nat.add_mul_mod_self_right, Nat.mod_eq_of_lt hj']
    have hdiv : (m * count 1 + j) / count 1 = m := by
      rw [Nat.add_comm, Nat.add_mul_div_right _ _ hc, Nat.div_eq_of_lt hj', Nat.zero_add]
    rw [digits, hmod, hdiv, indexDisp_cons]

theorem stridedIndices_loop {count : Nat → Nat} {k : Nat} (hpos : ∀ i ≤ k, 1 ≤ count (i + 1)) :
    stridedIndices count (k + 1) =
      .ok ((List.range (levelCounts count (k + 1)).prod).map
        (digits (levelCounts count (k + 1)))) := by
  have hcounts : ∀ c ∈ levelCounts count (k + 1), 0 < c := by
    intro c hc
    obtain ⟨i, hi, rfl⟩ := List.mem_map.mp hc
    exact hpos i (Nat.le_of_lt_succ (List.mem_range.mp hi))
  have hne : levelCounts count (k + 1) ≠ [] := by simp [levelCounts]
  have hloop := stridedLoop_eq hne hcounts (levelCounts count (k + 1)).prod 0 (Nat.zero_add _)
  rw [digits_zero, show (levelCounts count (k + 1)).length = k + 1 by simp [levelCounts]] at hloop
  simp only [Nat.zero_add] at hloop
  exact hloop

theorem stridedIndices_eq {count : Nat → Nat} {levels : Nat}
    (hpos : ∀ i, i + 1 ≤ levels → 1 ≤ count (i + 1)) :
    ∃ indices, stridedIndices count levels = .ok indices ∧
      ∀ stride, indices.map (indexDisp stride) = stridedBlocks stride count levels := by
  cases levels with
  | zero => exact ⟨[[]], rfl, fun stride => rfl⟩
  | succ k =>
    have hle : ∀ i ≤ k, 1 ≤ count (i + 1) := fun i hi => hpos i (by omega)
    refine ⟨_, stridedIndices_loop hle, fun stride => ?_⟩
    rw [List.map_map, ← indexDisp_digits stride count k hle]
    rfl

theorem stridedToIov_eq (src : Int) (srcStride : Nat → Int) (dst : Int) (dstStride : Nat → Int)
    {count : Nat → Nat} {levels : Nat} (hpos : ∀ i, i + 1 ≤ levels → 1 ≤ count (i + 1)) :
    ∃ iov, stridedToIov src srcStride dst dstStride count levels = .ok iov ∧
      iov.srcPtrArray = (stridedBlocks srcStride count levels).map (src + ·) ∧
      iov.dstPtrArray = (stridedBlocks dstStride count levels).map (dst + ·) ∧
      iov.bytes = count 0 := by
  obtain ⟨indices, hok, hblocks⟩ := stridedIndices_eq hpos
  refine ⟨_, by rw [stridedToIov, hok]; rfl, ?_, ?_, rfl⟩
  · rw [← hblocks, List.map_map]
    rfl
  · rw [← hblocks, List.map_map]
    rfl

-- ------------------------------
-- Correct specifications
-- ------------------------------

/-- A correct strided specification for elements of `typeSize` bytes: the levels are
nested without overlap. -/
structure StridedOk (stride : Nat → Int) (count : Nat → Nat) (levels typeSize : Nat) : Prop where
  pos : ∀ i ≤ levels, 1 ≤ count i
  count_dvd : typeSize ∣ count 0
  stride_dvd : 0 < levels → (typeSize : Int) ∣ stride 0
  block_le : 0 < levels → (count 0 : Int) ≤ stride 0
  dvd : ∀ i, i + 1 < levels → stride i ∣ stride (i + 1)
  nested : ∀ i, i + 1 < levels → count (i + 1) * stride i ≤ stride (i + 1)

section
variable {stride : Nat → Int} {count : Nat → Nat} {levels k : Nat}

theorem StridedOk.level_pos (hok : StridedOk stride count levels k) :
    ∀ i < levels, 1 ≤ count (i + 1) := fun i hi => hok.pos (i + 1) hi

theorem StridedOk.stride_pos (hok : StridedOk stride count levels k) {i : Nat} (hi : i < levels) :
    0 < stride i := by
  induction i with
  | zero =>
    have := hok.pos 0 (by omega)
    have := hok.block_le hi
    omega
  | succ i ih =>
    have hprev := ih (by omega)
    have hcount : (1 : Int) ≤ count (i + 1) := by exact_mod_cast hok.pos (i + 1) (by omega)
    calc 0 < stride i := hprev
      _ = 1 * stride i := (Int.one_mul _).symm
      _ ≤ count (i + 1) * stride i := Int.mul_le_mul_of_nonneg_right hcount hprev.le
      _ ≤ stride (i + 1) := hok.nested i hi

theorem StridedOk.mono (hok : StridedOk stride count levels k) {levels' : Nat}
    (hle : levels' ≤ levels) : StridedOk stride count levels' k where
  pos := fun i hi => hok.pos i (by omega)
  count_dvd := hok.count_dvd
  stride_dvd := fun h => hok.stride_dvd (by omega)
  block_le := fun h => hok.block_le (by omega)
  dvd := fun i hi => hok.dvd i (by omega)
  nested := fun i hi => hok.nested i (by omega)

theorem trimLevels_le (count : Nat → Nat) (levels : Nat) : trimLevels count levels ≤ levels := by
  induction levels with
  | zero => exact Nat.le_refl 0
  | succ levels ih =>
    unfold trimLevels
    split <;> omega

theorem stridedBlocks_trim (stride : Nat → Int) (count : Nat → Nat) (levels : Nat) :
    stridedBlocks stride count (trimLevels count levels) = stridedBlocks stride count levels := by
  induction levels with
  | zero => rfl
  | succ levels ih =>
    unfold trimLevels
    split
    · rename_i hone
      rw [ih, stridedBlocks, hone]
      simp
    · rfl

-- ------------------------------
-- The subarray
-- ------------------------------

theorem innerSizes_prod (hok : StridedOk stride count (levels + 1) k) (hk : 0 < k) :
    (((innerSizes stride k levels).map Int.toNat).prod : Int) * k = stride levels := by
  induction levels with
  | zero =>
    have hpos := hok.stride_pos (i := 0) (by omega)
    have hdiv := Int.tdiv_eq_ediv_of_nonneg (b := (k : Int)) hpos.le
    have hnonneg : 0 ≤ stride 0 / (k : Int) := Int.ediv_nonneg hpos.le (by omega)
    simp only [innerSizes, List.map_cons, List.map_nil, List.prod_cons, List.prod_nil, Nat.mul_one,
      hdiv, Int.toNat_of_nonneg hnonneg]
    exact Int.ediv_mul_cancel (hok.stride_dvd (by omega))
  | succ levels ih =>
    have hpos := hok.stride_pos (i := levels + 1) (by omega)
    have hprev := hok.stride_pos (i := levels) (by omega)
    have hdiv := Int.tdiv_eq_ediv_of_nonneg (b := stride levels) hpos.le
    have hnonneg : 0 ≤ stride (levels + 1) / stride levels := Int.ediv_nonneg hpos.le hprev.le
    rw [innerSizes, List.map_cons, List.prod_cons, Int.natCast_mul, hdiv, Int.toNat_of_nonneg hnonneg,
      Int.mul_assoc, ih (hok.mono (by omega))]
    exact Int.ediv_mul_cancel (hok.dvd levels (by omega))

/-- The elements of blocks of `n` elements. -/
def blockElems (k n : Nat) (blocks : List Int) : List Int :=
  blocks.flatMap fun d => (List.range n).map fun (j : Nat) => d + j * k

theorem subarrayIndices_level (hok : StridedOk stride count (levels + 1) k) (hk : 0 < k) (size : Nat)
    (h : (Dtype.subarrayIndices ((innerSizes stride k levels).map Int.toNat)
        (subsizes count k levels)).map (fun (i : Nat) => (i * k : Int)) =
      blockElems k (count 0 / k) (stridedBlocks stride count levels)) :
    (Dtype.subarrayIndices (size :: (innerSizes stride k levels).map Int.toNat)
        (subsizes count k (levels + 1))).map (fun (i : Nat) => (i * k : Int)) =
      blockElems k (count 0 / k) (stridedBlocks stride count (levels + 1)) := by
  have hprod := innerSizes_prod hok hk
  rw [subsizes, Dtype.subarrayIndices, stridedBlocks, blockElems, List.map_flatMap,
    List.flatMap_assoc]
  refine List.flatMap_congr fun j _ => ?_
  rw [List.map_map, List.flatMap_map]
  have hmap : (fun (i : Nat) => (i * k : Int)) ∘ (j * ((innerSizes stride k levels).map
      Int.toNat).prod + ·) = (stride levels * j + ·) ∘ fun (i : Nat) => (i * k : Int) := by
    funext i
    simp only [Function.comp_apply, Int.natCast_add, Int.natCast_mul, Int.add_mul, ← hprod]
    rw [Int.mul_assoc, Int.mul_comm (j : Int)]
  rw [hmap, ← List.map_map, h, blockElems, List.map_flatMap]
  refine List.flatMap_congr fun d _ => ?_
  rw [List.map_map]
  refine List.map_congr_left fun i _ => ?_
  simp only [Function.comp_apply]
  omega

theorem subarrayIndices_eq (hok : StridedOk stride count (levels + 1) k) (hk : 0 < k) :
    (Dtype.subarrayIndices ((innerSizes stride k levels).map Int.toNat)
        (subsizes count k levels)).map (fun (i : Nat) => (i * k : Int)) =
      blockElems k (count 0 / k) (stridedBlocks stride count levels) := by
  induction levels with
  | zero =>
    simp [innerSizes, subsizes, Dtype.subarrayIndices, stridedBlocks, blockElems,
      List.map_eq_flatMap]
  | succ levels ih =>
    exact subarrayIndices_level (hok.mono (by omega)) hk _ (ih (hok.mono (by omega)))

theorem all_fits (hok : StridedOk stride count (levels + 1) k) (hk : 0 < k) :
    ((innerSizes stride k levels).zip (subsizes count k levels)).all
      (fun (size, sub) => decide (1 ≤ sub ∧ (sub : Int) ≤ size)) = true := by
  induction levels with
  | zero =>
    have hpos := hok.stride_pos (i := 0) (by omega)
    have hblock := hok.block_le (by omega)
    have hle := Nat.le_of_dvd (hok.pos 0 (by omega)) hok.count_dvd
    have hone : 1 ≤ count 0 / k := Nat.div_pos hle hk
    have hsub : ((count 0 / k : Nat) : Int) ≤ (stride 0).tdiv k := by
      rw [Int.tdiv_eq_ediv_of_nonneg hpos.le, Int.natCast_ediv]
      exact Int.ediv_le_ediv (by omega) hblock
    rw [innerSizes, subsizes, List.zip_cons_cons, List.all_cons, List.zip_nil_left, List.all_nil,
      Bool.and_true]
    exact decide_eq_true ⟨hone, hsub⟩
  | succ levels ih =>
    have hpos := hok.stride_pos (i := levels + 1) (by omega)
    have hprev := hok.stride_pos (i := levels) (by omega)
    have hsub : (count (levels + 1) : Int) ≤ (stride (levels + 1)).tdiv (stride levels) := by
      rw [Int.tdiv_eq_ediv_of_nonneg hpos.le]
      exact Int.le_ediv_of_mul_le hprev (hok.nested levels (by omega))
    rw [innerSizes, subsizes, List.zip_cons_cons, List.all_cons, ih (hok.mono (by omega)),
      Bool.and_true]
    exact decide_eq_true ⟨hok.pos (levels + 1) (by omega), hsub⟩

theorem stridedToDtype_eq {b : BaseType} (hok : StridedOk stride count levels b.size) :
    ∃ t, stridedToDtype stride count levels (.predefined b) = .ok t ∧ t.base = b ∧
      t.disps = blockElems b.size (count 0 / b.size) (stridedBlocks stride count levels) := by
  have htype : (Dtype.predefined b).size = b.size := Nat.mul_one _
  have hmod : count 0 % b.size = 0 := Nat.mod_eq_zero_of_dvd hok.count_dvd
  have htrim := hok.mono (trimLevels_le count levels)
  have hmono : (List.range (trimLevels count levels - 1)).all
      (fun i => decide (stride i ≤ stride (i + 1))) = true := by
    rw [List.all_eq_true]
    intro i hi
    have hlt : i + 1 < trimLevels count levels := by
      have := List.mem_range.mp hi
      omega
    exact decide_eq_true (Int.le_of_dvd (htrim.stride_pos hlt) (htrim.dvd i hlt))
  rw [← stridedBlocks_trim]
  unfold stridedToDtype
  simp only [hmono, htype, hmod]
  generalize trimLevels count levels = trimmed at htrim
  cases trimmed with
  | zero =>
    refine ⟨_, rfl, rfl, ?_⟩
    simp [Dtype.contiguous, elems_predefined, blockElems, stridedBlocks]
  | succ k =>
    have hstride : (stride 0).tmod b.size = 0 := Int.tmod_eq_zero_of_dvd (htrim.stride_dvd (by omega))
    have hfits : ((((count (k + 1) : Nat) : Int) :: innerSizes stride b.size k).zip
        (subsizes count b.size (k + 1))).all
          (fun (size, sub) => decide (1 ≤ sub ∧ (sub : Int) ≤ size)) = true := by
      rw [subsizes, List.zip_cons_cons, List.all_cons, all_fits htrim b.size_pos, Bool.and_true]
      exact decide_eq_true ⟨htrim.pos (k + 1) (by omega), le_refl _⟩
    simp only [hstride, typeCreateSubarray, hfits]
    refine ⟨_, rfl, rfl, ?_⟩
    rw [← subarrayIndices_level htrim b.size_pos (count (k + 1))
      (subarrayIndices_eq htrim b.size_pos)]
    simp [Dtype.subarray, Dtype.predefined, List.map_eq_flatMap]

-- ------------------------------
-- Range checks
-- ------------------------------

theorem StridedOk.nonneg (hok : StridedOk stride count levels k) :
    ∀ d ∈ stridedBlocks stride count levels, 0 ≤ d := by
  induction levels with
  | zero => simp [stridedBlocks]
  | succ levels ih =>
    intro d hd
    obtain ⟨j, -, hd⟩ := List.mem_flatMap.mp hd
    obtain ⟨d', hd', rfl⟩ := List.mem_map.mp hd
    have := ih (hok.mono (by omega)) d' hd'
    have := Int.mul_nonneg (hok.stride_pos (i := levels) (by omega)).le (Int.natCast_nonneg j)
    omega

theorem StridedOk.block_end (hok : StridedOk stride count (levels + 1) k) :
    ∀ d ∈ stridedBlocks stride count levels, d + count 0 ≤ stride levels := by
  induction levels with
  | zero =>
    intro d hd
    obtain rfl := List.mem_singleton.mp hd
    have := hok.block_le (by omega)
    omega
  | succ levels ih =>
    intro d hd
    obtain ⟨j, hj, hd⟩ := List.mem_flatMap.mp hd
    obtain ⟨d', hd', rfl⟩ := List.mem_map.mp hd
    have hinner := ih (hok.mono (by omega)) d' hd'
    have hpos := hok.stride_pos (i := levels) (by omega)
    have hlt : (j : Int) + 1 ≤ count (levels + 1) := by
      exact_mod_cast List.mem_range.mp hj
    calc stride levels * j + d' + count 0 ≤ stride levels * (j + 1) := by
          rw [Int.mul_add, Int.mul_one]; omega
      _ ≤ stride levels * count (levels + 1) := Int.mul_le_mul_of_nonneg_left hlt hpos.le
      _ = count (levels + 1) * stride levels := Int.mul_comm _ _
      _ ≤ stride (levels + 1) := hok.nested levels (by omega)

theorem stridedBlocks_head (stride : Nat → Int) (hpos : ∀ i, i + 1 ≤ levels → 1 ≤ count (i + 1)) :
    ∃ ds, stridedBlocks stride count levels = 0 :: ds := by
  induction levels with
  | zero => exact ⟨[], rfl⟩
  | succ levels ih =>
    obtain ⟨ds, hds⟩ := ih fun i hi => hpos i (by omega)
    obtain ⟨c, hc⟩ : ∃ c, count (levels + 1) = c + 1 :=
      ⟨count (levels + 1) - 1, by have := hpos levels (by omega); omega⟩
    rw [stridedBlocks, hc, List.range_succ_eq_map, List.flatMap_cons, hds, List.map_cons,
      List.cons_append, Int.natCast_zero, Int.mul_zero, Int.add_zero]
    exact ⟨_, rfl⟩

theorem StridedOk.head (hok : StridedOk stride count levels k) :
    ∃ ds, stridedBlocks stride count levels = 0 :: ds :=
  stridedBlocks_head stride hok.level_pos

theorem le_foldl_max {l : List Int} {a d : Int} (hd : d = a ∨ d ∈ l) : d ≤ l.foldl max a := by
  induction l generalizing a d with
  | nil => exact (hd.resolve_right List.not_mem_nil).le
  | cons x l ih =>
    rcases hd with rfl | hd
    · exact (le_max_left d x).trans (ih (.inl rfl))
    · rcases List.mem_cons.mp hd with rfl | hd
      · exact (le_max_right a d).trans (ih (.inl rfl))
      · exact ih (.inr hd)

theorem foldl_min_le {l : List Int} {a d : Int} (hd : d = a ∨ d ∈ l) : l.foldl min a ≤ d := by
  induction l generalizing a d with
  | nil => exact (hd.resolve_right List.not_mem_nil).ge
  | cons x l ih =>
    rcases hd with rfl | hd
    · exact (ih (.inl rfl)).trans (min_le_left d x)
    · rcases List.mem_cons.mp hd with rfl | hd
      · exact (ih (.inl rfl)).trans (min_le_right a d)
      · exact ih (.inr hd)

theorem le_trueExtent {t : Dtype} (hzero : 0 ∈ t.disps) {d : Int} (hd : d ∈ t.disps) :
    d + t.elemSize ≤ t.trueExtent := by
  unfold Dtype.trueExtent Dtype.trueUb Dtype.trueLb
  rw [if_neg (List.ne_nil_of_mem hd)]
  have hub : d ≤ t.disps.foldl max (t.disps.headD 0) := le_foldl_max (.inr hd)
  have hlb : t.disps.foldl min (t.disps.headD 0) ≤ 0 := foldl_min_le (.inr hzero)
  omega

theorem mem_blockElems {n : Nat} {blocks : List Int} {e : Int} :
    e ∈ blockElems k n blocks ↔ ∃ d ∈ blocks, ∃ j < n, e = d + (j : Nat) * k := by
  simp only [blockElems, List.mem_flatMap, List.mem_map, List.mem_range, eq_comm]

theorem covers_blocks {mreg : Gmr} {proc : Nat} {rem : Int} (hrem : rem ≠ 0) {t : Dtype} {n : Nat}
    {blocks : List Int} (hn : 1 ≤ n) (hdisps : t.disps = blockElems t.base.size n blocks)
    (hzero : 0 ∈ blocks) (hnonneg : ∀ d ∈ blocks, 0 ≤ d) :
    mreg.Covers proc rem 1 t ↔ ∀ d ∈ blocks, mreg.Holds proc (rem + d) (n * t.base.size) := by
  have hdisp : mreg.disp proc rem = rem - (mreg.slice proc).base := if_neg hrem
  have hsize : t.elemSize = t.base.size := rfl
  have hk := t.base.size_pos
  constructor
  · rintro ⟨h₀, h₁, h₂⟩ d hd
    have hlast : d + ((n - 1 : Nat) : Int) * t.base.size ∈ t.disps := by
      rw [hdisps]
      exact mem_blockElems.mpr ⟨d, hd, n - 1, by omega, rfl⟩
    have hfirst : 0 ∈ t.disps := by
      rw [hdisps]
      exact mem_blockElems.mpr ⟨0, hzero, 0, hn, by simp⟩
    have hle := le_trueExtent hfirst hlast
    have hmul : ((n - 1 : Nat) : Int) * t.base.size + t.base.size = (n * t.base.size : Nat) := by
      have hn' : n - 1 + 1 = n := by omega
      rw [← Int.natCast_mul, ← Int.natCast_add, ← Nat.succ_mul, Nat.succ_eq_add_one, hn']
    have hpos : 0 < n * t.base.size := Nat.mul_pos hn hk
    have := hnonneg d hd
    exact ⟨by omega, by omega, by omega⟩
  · intro hall
    obtain ⟨hge, hlt, hle⟩ := hall 0 hzero
    refine ⟨by omega, by omega, ?_⟩
    have hext : t.trueExtent ≤ (mreg.slice proc).base + (mreg.slice proc).size - rem - 0 := by
      refine trueExtent_le (by omega) fun e he => ?_
      rw [hdisps] at he
      obtain ⟨d, hd, j, hj, rfl⟩ := mem_blockElems.mp he
      obtain ⟨-, -, hend⟩ := hall d hd
      have := hnonneg d hd
      have hj' : ((j : Int) + 1) * t.base.size ≤ (n * t.base.size : Nat) := by
        exact_mod_cast Nat.mul_le_mul_right t.base.size hj
      rw [Int.add_mul, Int.one_mul] at hj'
      have := Int.mul_nonneg (Int.natCast_nonneg j) (Int.natCast_nonneg t.base.size)
      exact ⟨by omega, by omega⟩
    rw [hdisp]
    omega

end

end ArmciMpi
