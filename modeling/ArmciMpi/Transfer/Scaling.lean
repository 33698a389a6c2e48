import ArmciMpi.Message.Reduce
import ArmciMpi.Transfer.Staging
import Mathlib.Algebra.QuadraticAlgebra.Defs
import Mathlib.Data.ZMod.Basic
import Mathlib.Tactic.Ring

/-!
# Scaling a buffer

`ARMCII_Buf_acc_scale` checks that the size is a multiple of that of the MPI type, but
a complex number is two of it, and the loops over them take the last one whole.
`scaling_exact_iff` says when the function keeps to its buffers.

The bodies of the loops over floating point numbers are written for numbers of any
type, with a `Format` for how they lie in memory. Over a commutative ring `R` the one
for complex numbers multiplies in `R[i]`.
-/

namespace ArmciMpi

open Lib Script

-- ------------------------------
-- Numbers of any type
-- ------------------------------

structure Format (R : Type) where
  size : Nat
  ofBytes : List UInt8 → R
  toBytes : R → List UInt8
  length_toBytes : ∀ x, (toBytes x).length = size

namespace Format

def floats : Format Float32 := ⟨4, floatAt, floatBytes, fun _ => leBytes_length _ _⟩

def doubles : Format Float := ⟨8, doubleAt, doubleBytes, fun _ => leBytes_length _ _⟩

/-- Numbers of `k` bytes that wrap around. -/
def wrapping (k : Nat) : Format (ZMod (256 ^ k)) :=
  ⟨k, fun x => leVal x, fun v => leBytes k v.val, fun _ => leBytes_length _ _⟩

variable {R : Type}

def Lossless (F : Format R) : Prop := ∀ x, F.ofBytes (F.toBytes x) = x

theorem lossless_wrapping (k : Nat) : (wrapping k).Lossless := by
  intro v
  have hpos : NeZero (256 ^ k) := ⟨(Nat.pow_pos (by decide)).ne'⟩
  show ((leVal (leBytes k v.val) : Nat) : ZMod (256 ^ k)) = v
  rw [leVal_leBytes, ZMod.natCast_mod, ZMod.natCast_zmod_val]

/-- The loop body for `ARMCI_ACC_FLT` and `ARMCI_ACC_DBL`. -/
def scaleOne [Mul R] (F : Format R) (s : R) (x : List UInt8) : List UInt8 :=
  F.toBytes (F.ofBytes x * s)

/-- The loop body for `ARMCI_ACC_CPL` and `ARMCI_ACC_DCP`. -/
def scalePair [Add R] [Sub R] [Mul R] (F : Format R) (s : R × R) (x : List UInt8) : List UInt8 :=
  let a := F.ofBytes (x.take F.size)
  let b := F.ofBytes (x.drop F.size)
  F.toBytes (a * s.1 - b * s.2) ++ F.toBytes (b * s.1 + a * s.2)

section
variable [CommRing R]

def complexAt (F : Format R) (x : List UInt8) : QuadraticAlgebra R (-1) 0 :=
  ⟨F.ofBytes (x.take F.size), F.ofBytes (x.drop F.size)⟩

theorem complexAt_scalePair {F : Format R} (hF : F.Lossless) (s : R × R) (x : List UInt8) :
    F.complexAt (F.scalePair s x) = ⟨s.1, s.2⟩ * F.complexAt x := by
  have hparts : ∀ v w : R, F.complexAt (F.toBytes v ++ F.toBytes w) = ⟨v, w⟩ := by
    intro v w
    have hlen := F.length_toBytes v
    rw [complexAt, List.take_left' hlen, List.drop_left' hlen, hF, hF]
  rw [scalePair, hparts, complexAt, QuadraticAlgebra.mk_mul_mk]
  congr 1 <;> ring

end

end Format

def Scale.IsProduct (scale : Scale) (x y : List UInt8) : Prop :=
  match scale with
  | int s => signedAt 4 y = i32 (s * signedAt 4 x)
  | lng s => signedAt 8 y = i64 (s * signedAt 8 x)
  | flt s => y = Format.floats.scaleOne s x
  | dbl s => y = Format.doubles.scaleOne s x
  | cpl re im => y = Format.floats.scalePair (re, im) x
  | dcp re im => y = Format.doubles.scalePair (re, im) x

theorem signedAt_leBytes_mul (k : Nat) (s : Int) {x : List UInt8} (hx : x.length = k) :
    signedAt k (leBytes k (s * leVal x % (2 ^ (8 * k) : Nat)).toNat) =
      (s * signedAt k x).bmod (2 ^ (8 * k)) := by
  have hpos : (0 : Int) < (2 ^ (8 * k) : Nat) := Int.natCast_pos.mpr (Nat.two_pow_pos _)
  rw [signedAt_leBytes, Int.toNat_of_nonneg (Int.emod_nonneg _ hpos.ne'), Int.emod_bmod, signedAt,
    List.take_of_length_le hx.le, Int.mul_bmod_bmod]

theorem Scale.isProduct_mul (scale : Scale) {x : List UInt8} (hx : x.length = scale.unit) :
    scale.IsProduct x (scale.mul x) := by
  cases scale with
  | int s => exact signedAt_leBytes_mul 4 s hx
  | lng s => exact signedAt_leBytes_mul 8 s hx
  | flt s => rfl
  | dbl s => rfl
  | cpl re im => rfl
  | dcp re im => rfl

-- ------------------------------
-- The loop
-- ------------------------------

def readBy (xs : List (Xfer Loc UInt8)) : Set Loc := {l | ∃ x ∈ xs, l ∈ x.src}

def writtenBy (xs : List (Xfer Loc UInt8)) : Set Loc := {l | ∃ x ∈ xs, l ∈ x.dst}

/-- The first `n` steps of a loop that writes a function of each input element. -/
def scaleSteps (fn : List UInt8 → List UInt8) (k me : Nat) (bufIn bufOut : Int) (n : Nat) :
    List (Xfer Loc UInt8) :=
  moveAll (fun x _ => fn x) k ((List.range n).map fun (j : Nat) =>
    (Loc.shift (me, bufIn) (j * k), Loc.shift (me, bufOut) (j * k)))

section
variable {fn : List UInt8 → List UInt8} {k me n : Nat} {bufIn bufOut : Int}

theorem scaleSteps_succ : scaleSteps fn k me bufIn bufOut (n + 1) =
    scaleSteps fn k me bufIn bufOut n ++ [move (fun x _ => fn x) k
      (Loc.shift (me, bufIn) (n * k)) (Loc.shift (me, bufOut) (n * k))] := by
  rw [scaleSteps, List.range_succ, List.map_append, moveAll_append]
  rfl

theorem take_scaleSteps {i : Nat} (hi : i ≤ n) :
    (scaleSteps fn k me bufIn bufOut n).take i = scaleSteps fn k me bufIn bufOut i := by
  rw [scaleSteps, moveAll, ← List.map_take, ← List.map_take, List.take_range, Nat.min_eq_left hi]
  rfl

theorem exists_scaleSteps {p : Xfer Loc UInt8 → Prop} :
    (∃ x ∈ scaleSteps fn k me bufIn bufOut n, p x) ↔ ∃ j < n, p (move (fun x _ => fn x) k
      (Loc.shift (me, bufIn) (j * k)) (Loc.shift (me, bufOut) (j * k))) := by
  simp [scaleSteps, moveAll]

theorem exists_elem_iff (hk : 0 < k) {l s : Loc} :
    (∃ j < n, l ∈ block (Loc.shift s (j * k)) k) ↔ l ∈ block s (n * k) :=
  ⟨fun ⟨_, hj, hl⟩ => shift_subset hj k hl, mem_block_elem hk⟩

theorem readBy_scaleSteps (hk : 0 < k) :
    readBy (scaleSteps fn k me bufIn bufOut n) = block (me, bufIn) (n * k) := by
  ext l
  exact exists_scaleSteps.trans (exists_elem_iff hk)

theorem writtenBy_scaleSteps (hk : 0 < k) :
    writtenBy (scaleSteps fn k me bufIn bufOut n) = block (me, bufOut) (n * k) := by
  ext l
  exact exists_scaleSteps.trans (exists_elem_iff hk)

theorem scaleSteps_bytes (hfn : ∀ x, (fn x).length = k) {i : Nat} (hi : i < n) (m : Mem) :
    bytesAt (Xfer.applyAll (scaleSteps fn k me bufIn bufOut n) m)
        (Loc.shift (me, bufOut) (i * k)) k =
      fn (bytesAt (Xfer.applyAll (scaleSteps fn k me bufIn bufOut i) m)
        (Loc.shift (me, bufIn) (i * k)) k) := by
  induction n with
  | zero => exact absurd hi (Nat.not_lt_zero i)
  | succ n ih =>
    rw [scaleSteps_succ, Xfer.applyAll_append, Xfer.applyAll_cons, Xfer.applyAll_nil]
    rcases Nat.lt_succ_iff_lt_or_eq.mp hi with hlt | rfl
    · rw [← ih hlt]
      exact bytesAt_congr ((move _ k _ _).run_eqOn (shift_disjoint (me, bufOut) hlt k).symm _ _)
    · exact move_bytes (fun x _ _ _ => hfn x) _ _ _ _

theorem scaleSteps_input {i : Nat} (h : bufOut ≤ bufIn ∨ bufIn + ((i + 1) * k : Nat) ≤ bufOut)
    (m : Mem) :
    bytesAt (Xfer.applyAll (scaleSteps fn k me bufIn bufOut i) m)
        (Loc.shift (me, bufIn) (i * k)) k =
      bytesAt m (Loc.shift (me, bufIn) (i * k)) k := by
  refine bytesAt_congr (moveAll_frame (fun e he => ?_) m)
  obtain ⟨j, hj, rfl⟩ := List.mem_map.mp he
  have hle : (j + 1) * k ≤ i * k := Nat.mul_le_mul_right k (List.mem_range.mp hj)
  refine block_disjoint fun _ => ?_
  show bufOut + (j * k : Int) + k ≤ bufIn + (i * k : Int) ∨
    bufIn + (i * k : Int) + k ≤ bufOut + (j * k : Int)
  rw [Nat.add_mul, Nat.one_mul] at hle h
  have hnonneg : (0 : Int) ≤ (j * k : Nat) := Int.natCast_nonneg _
  push_cast at hle h hnonneg
  omega

end

theorem block_length_inj {l : Loc} {a b : Nat} (h : block l a = block l b) : a = b := by
  have hle : ∀ {a b : Nat}, block l a = block l b → a ≤ b := by
    intro a b h
    by_contra hlt
    have hmem : (l.1, l.2 + (b : Int)) ∈ block l b := h ▸ mem_block_iff.mpr ⟨b, by omega, rfl⟩
    exact absurd hmem.2.2 (lt_irrefl _)
  exact Nat.le_antisymm (hle h) (hle h.symm)

-- ------------------------------
-- The function
-- ------------------------------

theorem Scale.unit_pos (scale : Scale) : 0 < scale.unit := by
  cases scale <;> exact Nat.succ_pos _

theorem Scale.steps_mul_unit {scale : Scale} {size : Nat} (h : size % scale.base.size = 0) :
    size ≤ scale.iterations (size / scale.base.size) * scale.unit ∧
      (scale.iterations (size / scale.base.size) * scale.unit = size ↔ scale.unit ∣ size) := by
  cases scale <;> simp only [base, BaseType.size, iterations, unit] at h ⊢ <;> omega

theorem actXfers_scale (me : Nat) (scale : Scale) (bufIn bufOut : Int) (n : Nat) :
    actXfers me [.scale scale bufIn bufOut n] =
      scaleSteps scale.mul scale.unit me bufIn bufOut n := by
  simp [actXfers, actSteps, Act.steps, stepXfers, scaleSteps, moveAll, Loc.shift,
    List.map_eq_flatMap, List.flatMap_assoc]

theorem onlyNow_scale (me : Nat) (scale : Scale) (bufIn bufOut : Int) (n : Nat) :
    OnlyNow (actSteps me [.scale scale bufIn bufOut n]) := by
  intro step hstep
  rw [actSteps, List.flatMap_singleton] at hstep
  obtain ⟨j, -, rfl⟩ := List.mem_map.mp hstep
  exact ⟨_, rfl⟩

/-- Where the final assertion passes, the function reads its input and writes its output and no
other byte exactly if the size is a multiple of what one step works on. Each element that lies in
the output is the product of what the input element was at its turn, which is what it was at the
start unless the output starts inside the input. Over a commutative ring the step for complex
numbers is their product. -/
theorem scaling_exact_iff {bufIn bufOut : Int} {size : Nat} {scale : Scale} {h acts : List Act}
    (hrun : bufAccScale bufIn bufOut size scale h = (.ok (), acts)) (me : Nat) :
    (readBy (actXfers me acts) ⊆ block (me, bufIn) size ∧
      writtenBy (actXfers me acts) = block (me, bufOut) size ↔ scale.unit ∣ size) ∧
    (∀ m m', Completed me acts m m' → ∀ i, (i + 1) * scale.unit ≤ size →
      ∃ x, x = bytesAt (Xfer.applyAll ((actXfers me acts).take i) m)
          (Loc.shift (me, bufIn) (i * scale.unit)) scale.unit ∧
        (bufOut ≤ bufIn ∨ bufIn + size ≤ bufOut →
          x = bytesAt m (Loc.shift (me, bufIn) (i * scale.unit)) scale.unit) ∧
        scale.IsProduct x (bytesAt m' (Loc.shift (me, bufOut) (i * scale.unit)) scale.unit)) ∧
    ∀ (R : Type) [CommRing R] (F : Format R), F.Lossless → ∀ (s : R × R) (x : List UInt8),
      F.complexAt (F.scalePair s x) = ⟨s.1, s.2⟩ * F.complexAt x := by
  obtain ⟨hmod, rfl⟩ := bufAccScale_eq_ok hrun
  obtain ⟨hcover, hexact⟩ := Scale.steps_mul_unit hmod
  have hpos := scale.unit_pos
  refine ⟨?_, fun m m' hdone i hi => ?_, fun R _ F hF => Format.complexAt_scalePair hF⟩
  · rw [actXfers_scale, readBy_scaleSteps hpos, writtenBy_scaleSteps hpos, ← hexact]
    constructor
    · rintro ⟨-, hwritten⟩
      exact block_length_inj hwritten
    · intro heq
      rw [heq]
      exact ⟨subset_rfl, rfl⟩
  · have hlt : i < scale.iterations (size / scale.base.size) :=
      Nat.lt_of_mul_lt_mul_right ((Nat.mul_lt_mul_of_pos_right (Nat.lt_succ_self i) hpos).trans_le
        (hi.trans hcover))
    have hnow := onlyNow_scale me scale bufIn bufOut (scale.iterations (size / scale.base.size))
    rw [hdone.memory hnow.raceFree, actXfers_scale, take_scaleSteps hlt.le]
    refine ⟨_, rfl, fun hapart => scaleSteps_input ?_ m, ?_⟩
    · exact hapart.imp_right fun hle => by omega
    · rw [scaleSteps_bytes scale.mul_length hlt]
      exact scale.isProduct_mul (bytesAt_length ..)

/-- One float with a complex scale passes the assertion, and eight bytes are written. -/
theorem scaling_beyond_buffer : ∃ acts,
    bufAccScale 16 64 4 (.cpl 2 0) [] = (.ok (), acts) ∧
      (0, 68) ∈ writtenBy (actXfers 0 acts) ∧ (0, 68) ∉ block (0, 64) 4 := by
  refine ⟨[.scale (.cpl 2 0) 16 64 1], rfl, ?_, by decide⟩
  rw [actXfers_scale, writtenBy_scaleSteps (Scale.unit_pos _)]
  decide

/-- Two `int`s are doubled in place. -/
theorem scaling_exact_iff_in_place :
    (∃ acts, bufAccScale 16 16 8 (.int 2) [] = (.ok (), acts) ∧
      writtenBy (actXfers 0 acts) = block (0, 16) 8 ∧
      ∀ m m', Completed 0 acts m m' →
        signedAt 4 (bytesAt m' (0, 20) 4) = i32 (2 * signedAt 4 (bytesAt m (0, 20) 4))) ∧
    ∀ s x, (Format.wrapping 4).complexAt ((Format.wrapping 4).scalePair s x) =
      ⟨s.1, s.2⟩ * (Format.wrapping 4).complexAt x := by
  have hrun : bufAccScale 16 16 8 (.int 2) [] = (.ok (), [.scale (.int 2) 16 16 2]) := rfl
  obtain ⟨hexact, hvalues, hring⟩ := scaling_exact_iff hrun 0
  refine ⟨⟨_, hrun, (hexact.mpr (by decide)).2, fun m m' hdone => ?_⟩,
    hring _ _ (Format.lossless_wrapping 4)⟩
  obtain ⟨x, -, hinput, hproduct⟩ := hvalues m m' hdone 1 (by decide)
  obtain rfl := hinput (.inl le_rfl)
  exact hproduct

end ArmciMpi
