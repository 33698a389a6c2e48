import ArmciMpi.Transfer.Layout
import Mathlib.Algebra.Order.BigOperators.Group.Finset

/-!
# Strides that do not divide

`ARMCII_Strided_to_dtype` divides each stride by the one below it to get the
dimensions of a subarray, and does not check that the division is exact. The
subarray then has the strides `effStride`, the products of the truncated
quotients. They are those of a correct specification, so its blocks do not
meet, but they are the blocks of the caller only under a condition on the
levels that count more than one (`covers_requested_iff`).
-/

namespace ArmciMpi

open Lib Script

def Dtype.Covers (t : Dtype) (x : Int) : Prop := ∃ d ∈ t.disps, d ≤ x ∧ x < d + t.elemSize

/-- A type of elements: its bytes are those from 0 to its size. -/
structure Dtype.Solid (t : Dtype) : Prop where
  pos : 0 < t.size
  extent : t.extent = t.size
  covers : ∀ x, t.Covers x ↔ 0 ≤ x ∧ x < t.size

theorem Dtype.solid_predefined (b : BaseType) : (Dtype.predefined b).Solid where
  pos := by simpa [Dtype.size, Dtype.predefined, Dtype.elemSize] using b.size_pos
  extent := by simp [Dtype.size, Dtype.predefined, Dtype.elemSize]
  covers x := by simp [Dtype.Covers, Dtype.size, Dtype.predefined, Dtype.elemSize]

def Requested (stride : Nat → Int) (count : Nat → Nat) (levels : Nat) (x : Int) : Prop :=
  ∃ (idx : Nat → Nat) (b : Nat), (∀ i < levels, idx i < count (i + 1)) ∧ b < count 0 ∧
    x = ∑ i ∈ Finset.range levels, stride i * idx i + b

def effStride (stride : Nat → Int) : Nat → Int
  | 0 => stride 0
  | i + 1 => (stride (i + 1)).tdiv (stride i) * effStride stride i

section
variable {stride : Nat → Int} {count : Nat → Nat} {levels k : Nat} {x : Int} {t type : Dtype}

-- ------------------------------
-- Blocks by index
-- ------------------------------

theorem mem_stridedBlocks {d : Int} : d ∈ stridedBlocks stride count levels ↔
    ∃ idx : Nat → Nat, (∀ i < levels, idx i < count (i + 1)) ∧
      d = ∑ i ∈ Finset.range levels, stride i * idx i := by
  induction levels generalizing d with
  | zero => simp [stridedBlocks]
  | succ levels ih =>
    simp only [stridedBlocks, List.mem_flatMap, List.mem_range, List.mem_map, ih]
    constructor
    · rintro ⟨j, hj, d, ⟨idx, hidx, rfl⟩, rfl⟩
      refine ⟨Function.update idx levels j, fun i hi => ?_, ?_⟩
      · by_cases h : i = levels
        · simpa [h] using hj
        · simpa [h] using hidx i (by omega)
      · rw [Finset.sum_range_succ, Function.update_self, Int.add_comm]
        congr 1
        refine Finset.sum_congr rfl fun i hi => ?_
        have hne : i ≠ levels := (Finset.mem_range.mp hi).ne
        rw [Function.update_of_ne hne]
    · rintro ⟨idx, hidx, rfl⟩
      exact ⟨idx levels, hidx levels (by omega), _, ⟨idx, fun i hi => hidx i (by omega), rfl⟩,
        by rw [Finset.sum_range_succ, Int.add_comm]⟩

/-- The bytes of blocks of `count[0]` bytes. -/
def InBlocks (stride : Nat → Int) (count : Nat → Nat) (levels : Nat) (x : Int) : Prop :=
  ∃ d ∈ stridedBlocks stride count levels, d ≤ x ∧ x < d + count 0

theorem requested_iff : Requested stride count levels x ↔ InBlocks stride count levels x := by
  constructor
  · rintro ⟨idx, b, hidx, hb, rfl⟩
    exact ⟨_, mem_stridedBlocks.mpr ⟨idx, hidx, rfl⟩, by omega, by omega⟩
  · rintro ⟨d, hd, hle, hlt⟩
    obtain ⟨idx, hidx, rfl⟩ := mem_stridedBlocks.mp hd
    exact ⟨idx, (x - ∑ i ∈ Finset.range levels, stride i * idx i).toNat, hidx, by omega, by omega⟩

/-- Blocks of `n` elements cover the bytes of blocks of their size. -/
theorem exists_blockElems {n : Nat} {blocks : List Int} (hk : 0 < k) :
    (∃ e ∈ blockElems k n blocks, e ≤ x ∧ x < e + k) ↔
      ∃ d ∈ blocks, d ≤ x ∧ x < d + (n * k : Nat) := by
  simp only [blockElems, List.mem_flatMap, List.mem_map, List.mem_range]
  constructor
  · rintro ⟨_, ⟨d, hd, j, hj, rfl⟩, hle, hlt⟩
    have hend : (j + 1) * k ≤ n * k := Nat.mul_le_mul_right k hj
    have hend' : (j : Int) * k + k ≤ (n * k : Nat) := by
      rw [Nat.succ_mul] at hend
      exact_mod_cast hend
    have : (0 : Int) ≤ j * k := Int.mul_nonneg (by omega) (by omega)
    exact ⟨d, hd, by omega, by omega⟩
  · rintro ⟨d, hd, hle, hlt⟩
    have hk' : (0 : Int) < k := by omega
    have hdiv := Int.emod_add_mul_ediv (x - d) k
    have hmod := Int.emod_nonneg (x - d) hk'.ne'
    have hmod' := Int.emod_lt_of_pos (x - d) hk'
    have hq : 0 ≤ (x - d) / k := Int.ediv_nonneg (by omega) hk'.le
    have hlt' : (x - d) / k < n := by
      refine Int.ediv_lt_of_lt_mul hk' ?_
      push_cast at hlt
      omega
    refine ⟨_, ⟨d, hd, ((x - d) / k).toNat, by omega, rfl⟩, ?_, ?_⟩
    all_goals
      rw [Int.toNat_of_nonneg hq, Int.mul_comm]
      omega

theorem Dtype.Solid.exists_copies (ht : t.Solid) (js : List Nat) :
    (∃ d ∈ js.flatMap (fun (j : Nat) => t.disps.map (j * t.extent + ·)), d ≤ x ∧ x < d + t.elemSize) ↔
      ∃ e ∈ js.map (fun (j : Nat) => (j * t.size : Int)), e ≤ x ∧ x < e + t.size := by
  simp only [List.mem_flatMap, List.mem_map]
  constructor
  · rintro ⟨_, ⟨j, hj, d, hd, rfl⟩, hle, hlt⟩
    rw [ht.extent] at hle hlt
    have hin := (ht.covers (x - j * t.size)).mp ⟨d, hd, by omega, by omega⟩
    exact ⟨_, ⟨j, hj, rfl⟩, by omega, by omega⟩
  · rintro ⟨_, ⟨j, hj, rfl⟩, hle, hlt⟩
    obtain ⟨d, hd, hle', hlt'⟩ := (ht.covers (x - j * t.size)).mpr ⟨by omega, by omega⟩
    exact ⟨_, ⟨j, hj, d, hd, rfl⟩, by rw [ht.extent]; omega, by rw [ht.extent]; omega⟩

-- ------------------------------
-- What the checks leave
-- ------------------------------

/-- What the assertions and the rule of `MPI_Type_create_subarray` say of `levels + 1`
levels. -/
structure StridedPasses (stride : Nat → Int) (count : Nat → Nat) (levels k : Nat) : Prop where
  count_dvd : k ∣ count 0
  stride_dvd : (k : Int) ∣ stride 0
  mono : ∀ i < levels, stride i ≤ stride (i + 1)
  outer : 1 ≤ count (levels + 1)
  block : 1 ≤ count 0 / k ∧ ((count 0 / k : Nat) : Int) ≤ (stride 0).tdiv k
  inner : ∀ i < levels, 1 ≤ count (i + 1) ∧
    (count (i + 1) : Int) ≤ (stride (i + 1)).tdiv (stride i)

theorem fits_inner (h : ((innerSizes stride k levels).zip (subsizes count k levels)).all
      (fun (size, sub) => decide (1 ≤ sub ∧ (sub : Int) ≤ size)) = true) :
    (1 ≤ count 0 / k ∧ ((count 0 / k : Nat) : Int) ≤ (stride 0).tdiv k) ∧
      ∀ i < levels, 1 ≤ count (i + 1) ∧ (count (i + 1) : Int) ≤ (stride (i + 1)).tdiv (stride i) := by
  induction levels with
  | zero =>
    simp only [innerSizes, subsizes, List.zip_cons_cons, List.zip_nil_left, List.all_cons,
      List.all_nil, Bool.and_true, decide_eq_true_eq] at h
    exact ⟨h, fun i hi => absurd hi (Nat.not_lt_zero i)⟩
  | succ levels ih =>
    rw [innerSizes, subsizes, List.zip_cons_cons, List.all_cons, Bool.and_eq_true,
      decide_eq_true_eq] at h
    obtain ⟨hblock, hinner⟩ := ih h.2
    refine ⟨hblock, fun i hi => ?_⟩
    rcases Nat.lt_succ_iff_lt_or_eq.mp hi with hi | rfl
    · exact hinner i hi
    · exact h.1

theorem stridedToDtype_eq_ok (h : stridedToDtype stride count levels type = .ok t) :
    (trimLevels count levels = 0 ∧ type.size ∣ count 0 ∧
      t = type.contiguous (count 0 / type.size)) ∨
    ∃ k, trimLevels count levels = k + 1 ∧ StridedPasses stride count k type.size ∧
      t = type.subarray (count (k + 1) :: (innerSizes stride type.size k).map Int.toNat)
        (subsizes count type.size (k + 1)) := by
  unfold stridedToDtype at h
  generalize trimLevels count levels = trimmed at h
  obtain ⟨hmono, h⟩ := ite_throw_eq_ok.mp h
  rw [Bool.not_eq_true', Bool.not_eq_false, List.all_eq_true] at hmono
  cases trimmed with
  | zero =>
    obtain ⟨hmod, h⟩ := ite_throw_eq_ok.mp h
    cases h
    exact .inl ⟨rfl, Nat.dvd_of_mod_eq_zero (not_not.mp hmod), rfl⟩
  | succ k =>
    obtain ⟨hstride, h⟩ := ite_throw_eq_ok.mp h
    obtain ⟨hmod, h⟩ := ite_throw_eq_ok.mp h
    unfold typeCreateSubarray at h
    split at h
    · rename_i hfits
      cases h
      rw [subsizes, List.zip_cons_cons, List.all_cons, Bool.and_eq_true, decide_eq_true_eq] at hfits
      obtain ⟨hblock, hinner⟩ := fits_inner hfits.2
      refine .inr ⟨k, rfl, ⟨Nat.dvd_of_mod_eq_zero (not_not.mp hmod),
        Int.dvd_of_tmod_eq_zero (not_not.mp hstride), fun i hi => ?_, hfits.1.1, hblock, hinner⟩, rfl⟩
      exact of_decide_eq_true (hmono i (List.mem_range.mpr hi))
    · cases h

theorem StridedPasses.count_le (h : StridedPasses stride count levels k) :
    1 ≤ count 0 ∧ (count 0 : Int) ≤ stride 0 := by
  have hk : 0 < k := by
    rcases Nat.eq_zero_or_pos k with rfl | hk
    · exact absurd h.block.1 (by simp)
    · exact hk
  obtain ⟨n, hn⟩ := h.count_dvd
  obtain ⟨m, hm⟩ := h.stride_dvd
  have hdiv : count 0 / k = n := by rw [hn, Nat.mul_div_cancel_left _ hk]
  have hdiv' : (stride 0).tdiv k = m := by
    rw [hm]
    exact Int.mul_tdiv_cancel_left _ (by omega)
  obtain ⟨hone, hle⟩ := h.block
  rw [hdiv] at hone hle
  rw [hdiv'] at hle
  constructor
  · rw [hn]
    exact Nat.mul_pos hk hone
  · rw [hn, hm]
    push_cast
    exact Int.mul_le_mul_of_nonneg_left hle (by omega)

theorem StridedPasses.stride_pos (h : StridedPasses stride count levels k) {i : Nat}
    (hi : i ≤ levels) : 0 < stride i := by
  induction i with
  | zero =>
    have := h.count_le
    omega
  | succ i ih => exact Int.lt_of_lt_of_le (ih (by omega)) (h.mono i (by omega))

theorem StridedPasses.effStride_pos (h : StridedPasses stride count levels k) {i : Nat}
    (hi : i ≤ levels) : 0 < effStride stride i := by
  induction i with
  | zero => exact h.stride_pos (Nat.zero_le _)
  | succ i ih =>
    have := h.inner i (by omega)
    exact Int.mul_pos (by omega) (ih (by omega))

theorem StridedPasses.effStride_le (h : StridedPasses stride count levels k) {i : Nat}
    (hi : i ≤ levels) : effStride stride i ≤ stride i := by
  induction i with
  | zero => exact Int.le_refl _
  | succ i ih =>
    have hpos := h.stride_pos (i := i) (by omega)
    have hpos' := h.stride_pos hi
    have hq : 0 ≤ stride (i + 1) / stride i := Int.ediv_nonneg hpos'.le hpos.le
    rw [effStride, Int.tdiv_eq_ediv_of_nonneg hpos'.le]
    calc stride (i + 1) / stride i * effStride stride i
        ≤ stride (i + 1) / stride i * stride i := Int.mul_le_mul_of_nonneg_left (ih (by omega)) hq
      _ ≤ stride (i + 1) := Int.ediv_mul_le _ hpos.ne'

theorem StridedPasses.ok (h : StridedPasses stride count levels k) :
    StridedOk (effStride stride) count (levels + 1) k where
  pos := fun i hi => by
    rcases i with - | i
    · exact h.count_le.1
    · by_cases hi' : i < levels
      · exact (h.inner i hi').1
      · obtain rfl : i = levels := by omega
        exact h.outer
  count_dvd := h.count_dvd
  stride_dvd := fun _ => h.stride_dvd
  block_le := fun _ => h.count_le.2
  dvd := fun i _ => Dvd.intro_left _ rfl
  nested := fun i hi =>
    Int.mul_le_mul_of_nonneg_right (h.inner i (by omega)).2 (h.effStride_pos (by omega)).le

theorem StridedPasses.innerSizes_eff (h : StridedPasses stride count levels k) {n : Nat}
    (hn : n ≤ levels) : innerSizes (effStride stride) k n = innerSizes stride k n := by
  induction n with
  | zero => rfl
  | succ n ih =>
    have hpos := h.effStride_pos (i := n) (by omega)
    rw [innerSizes, innerSizes, ih (by omega), effStride, Int.mul_tdiv_cancel _ hpos.ne']

theorem stridedToDtype_covers (ht : type.Solid) (h : stridedToDtype stride count levels type = .ok t) :
    t.Covers x ↔ InBlocks (effStride stride) count levels x := by
  rw [InBlocks, ← stridedBlocks_trim]
  have hspread : type.size ∣ count 0 → ∀ (js : List Nat) (blocks : List Int),
      js.map (fun (j : Nat) => (j * type.size : Int)) =
        blockElems type.size (count 0 / type.size) blocks →
      ((∃ d ∈ js.flatMap (fun (j : Nat) => type.disps.map (j * type.extent + ·)),
          d ≤ x ∧ x < d + type.elemSize) ↔ ∃ d ∈ blocks, d ≤ x ∧ x < d + count 0) := by
    intro hdvd js blocks hjs
    rw [ht.exists_copies, hjs, exists_blockElems ht.pos, Nat.div_mul_cancel hdvd]
  rcases stridedToDtype_eq_ok h with ⟨htrim, hdvd, rfl⟩ | ⟨n, htrim, hpass, rfl⟩
  · rw [htrim]
    refine hspread hdvd (List.range (count 0 / type.size)) [0] ?_
    simp [blockElems]
  · rw [htrim]
    refine hspread hpass.count_dvd _ _ ?_
    have hlevels := subarrayIndices_eq (hpass.ok) ht.pos
    have hlast := subarrayIndices_level hpass.ok ht.pos (count (n + 1)) hlevels
    rw [hpass.innerSizes_eff (Nat.le_refl n)] at hlast
    exact hlast

-- ------------------------------
-- When the strides are the caller's
-- ------------------------------

theorem stridedBlocks_congr {stride' : Nat → Int}
    (h : ∀ i < levels, 1 < count (i + 1) → stride' i = stride i) :
    stridedBlocks stride' count levels = stridedBlocks stride count levels := by
  induction levels with
  | zero => rfl
  | succ levels ih =>
    rw [stridedBlocks, stridedBlocks, ih fun i hi => h i (by omega)]
    refine List.flatMap_congr fun j hj => ?_
    have hj := List.mem_range.mp hj
    by_cases hone : 1 < count (levels + 1)
    · rw [h levels (by omega) hone]
    · obtain rfl : j = 0 := by omega
      simp

theorem StridedOk.inBlocks_stride (hok : StridedOk stride count levels k) {i : Nat} (hi : i < levels)
    (hcount : 1 < count (i + 1)) : InBlocks stride count levels (stride i) := by
  have hpos := hok.pos 0 (Nat.zero_le _)
  refine ⟨stride i, mem_stridedBlocks.mpr ⟨fun j => if j = i then 1 else 0, fun j hj => ?_, ?_⟩,
    Int.le_refl _, by omega⟩
  · have := hok.pos (j + 1) hj
    dsimp only
    split
    · rename_i h
      rw [h]
      exact hcount
    · omega
  · rw [Finset.sum_eq_single_of_mem i (Finset.mem_range.mpr hi)]
    · simp
    · intro j _ hj
      simp [hj]

theorem inBlocks_below (hnonneg : ∀ i < levels, 0 ≤ stride i) {n : Nat} (hn : n ≤ levels)
    (hx : ∀ i < levels, n ≤ i → x < stride i) (h : InBlocks stride count levels x) :
    InBlocks stride count n x := by
  obtain ⟨d, hd, hle, hlt⟩ := h
  obtain ⟨idx, hidx, rfl⟩ := mem_stridedBlocks.mp hd
  have hterm : ∀ i ∈ Finset.range levels, 0 ≤ stride i * (idx i : Int) := fun i hi =>
    Int.mul_nonneg (hnonneg i (Finset.mem_range.mp hi)) (by omega)
  have hzero : ∀ i ∈ Finset.range levels, i ∉ Finset.range n → stride i * (idx i : Int) = 0 := by
    intro i hi hin
    have hi' := Finset.mem_range.mp hi
    have hni : n ≤ i := by simpa using hin
    have hsingle := Finset.single_le_sum hterm hi
    have hlt' := hx i hi' hni
    rcases Nat.eq_zero_or_pos (idx i) with h0 | hpos
    · rw [h0]
      exact Int.mul_zero _
    · have : stride i * 1 ≤ stride i * (idx i : Int) :=
        Int.mul_le_mul_of_nonneg_left (by omega) (hnonneg i hi')
      omega
  have hsub : Finset.range n ⊆ Finset.range levels := Finset.range_mono hn
  rw [← Finset.sum_subset hsub hzero] at hle hlt
  exact ⟨_, mem_stridedBlocks.mpr ⟨idx, fun i hi => hidx i (by omega), rfl⟩, hle, hlt⟩

theorem lt_trimLevels {i : Nat} (hi : i < levels) (hcount : 1 < count (i + 1)) :
    i < trimLevels count levels := by
  induction levels with
  | zero => omega
  | succ levels ih =>
    unfold trimLevels
    split
    · rename_i hone
      rcases Nat.lt_succ_iff_lt_or_eq.mp hi with hi | rfl
      · exact ih hi
      · omega
    · exact hi

theorem StridedPasses.eff_eq (h : StridedPasses stride count levels k)
    (hsame : ∀ x, InBlocks (effStride stride) count (levels + 1) x →
      InBlocks stride count (levels + 1) x) :
    ∀ i < levels + 1, 1 < count (i + 1) → effStride stride i = stride i := by
  intro i
  induction i using Nat.strong_induction_on with
  | _ i ih =>
    intro hi hcount
    by_contra hne
    have hlt : effStride stride i < stride i := lt_of_le_of_ne (h.effStride_le (by omega)) hne
    have hmono : ∀ j, i ≤ j → j < levels + 1 → stride i ≤ stride j := by
      intro j hij
      induction j, hij using Nat.le_induction with
      | base => exact fun _ => Int.le_refl _
      | succ j hij ihj => exact fun hj => (ihj (by omega)).trans (h.mono j (by omega))
    have hin := inBlocks_below (fun j hj => (h.stride_pos (by omega)).le) (by omega)
      (fun j hj hij => Int.lt_of_lt_of_le hlt (hmono j hij hj))
      (hsame _ (h.ok.inBlocks_stride hi hcount))
    -- below this level the strides agree, and the truncated ones leave no byte there
    rw [InBlocks, ← stridedBlocks_congr fun j hj => ih j hj (by omega)] at hin
    obtain ⟨d, hd, -, hlt'⟩ := hin
    have hend := StridedOk.block_end (h.ok.mono (by omega : i + 1 ≤ levels + 1)) d hd
    omega

/-- If the assertions and MPI's rule hold, nothing is divided by zero, and the datatype
covers the bytes asked for exactly if on every level with more than one step the truncated
stride is the stride. -/
theorem covers_requested_iff (ht : type.Solid)
    (h : stridedToDtype stride count levels type = .ok t) :
    ((∀ i, i + 1 < trimLevels count levels → stride i ≠ 0) ∧
      ∀ x, t.Covers x ↔ Requested stride count levels x) ↔
    ∀ i < levels, 1 < count (i + 1) → effStride stride i = stride i := by
  simp only [stridedToDtype_covers ht h, requested_iff]
  constructor
  · rintro ⟨-, hsame⟩ i hi hcount
    have hlt := lt_trimLevels hi hcount
    rcases stridedToDtype_eq_ok h with ⟨htrim, -, -⟩ | ⟨n, htrim, hpass, -⟩
    · omega
    · refine hpass.eff_eq (fun x hx => ?_) i (by omega) hcount
      rw [InBlocks, ← htrim, stridedBlocks_trim] at hx ⊢
      exact (hsame x).mp hx
  · intro heq
    refine ⟨fun i hi => ?_, fun x => ?_⟩
    · rcases stridedToDtype_eq_ok h with ⟨htrim, -, -⟩ | ⟨n, htrim, hpass, -⟩
      · omega
      · exact (hpass.stride_pos (by omega)).ne'
    · rw [InBlocks, stridedBlocks_congr heq]
      rfl

end

/-- 2 steps of 10 bytes over 2 steps of 4 bytes: the outer stride becomes 8. -/
theorem truncated_stride :
    ∃ t, stridedToDtype (fun i => [4, 10].getD i 0) (fun i => [4, 2, 2].getD i 0) 2
        (.predefined .byte) = .ok t ∧
      t.Covers 8 ∧
      ¬ Requested (fun i => [4, 10].getD i 0) (fun i => [4, 2, 2].getD i 0) 2 8 := by
  refine ⟨_, rfl, ⟨8, by decide, by decide, by decide⟩, ?_⟩
  rintro ⟨idx, b, hidx, hb, hx⟩
  have h0 := hidx 0 (by decide)
  have h1 := hidx 1 (by decide)
  simp only [Finset.sum_range_succ, Finset.sum_range_zero] at hx
  change (8 : Int) = 0 + 4 * idx 0 + 10 * idx 1 + b at hx
  change idx 0 < 2 at h0
  change idx 1 < 2 at h1
  change b < 4 at hb
  omega

theorem covers_requested_iff_exact :
    ∃ t, stridedToDtype (fun i => [4, 12].getD i 0) (fun i => [4, 3, 2].getD i 0) 2
        (.predefined .int) = .ok t ∧
      ∀ x, t.Covers x ↔
        Requested (fun i => [4, 12].getD i 0) (fun i => [4, 3, 2].getD i 0) 2 x := by
  refine ⟨_, rfl, ((covers_requested_iff (Dtype.solid_predefined .int) rfl).mpr ?_).2⟩
  decide

end ArmciMpi
