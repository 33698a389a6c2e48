import ArmciMpi.Transfer.Segments
import ArmciMpi.Transfer.Entries

/-!
# The range checks of the datatype path

`ARMCII_Iov_op_datatype` checks each remote block itself, since the accessor it
calls sees only one datatype at displacement 0. The check of the end adds the
number of elements to an address, and the check of the start looks at a
displacement that was converted to `int`. `datatype_checks_iff` says what these
checks leave open: starts below the slice where the displacement wraps around, and
starts in a gap before the end of the slice that is as long as elements are longer
than bytes. The size of the slice is converted to `int` as well, so that they
turn down blocks of a large slice (`datatype_accepts_iff`).
-/

namespace ArmciMpi

open Lib Script

section
variable {env : Env} {proc : Nat} {kind : RmaKind} {src dst : List Int} {n : Nat} {type : Dtype}
  {blocking : Bool} {handle : Option Nat} {h acts : List Act}

theorem i32_le_self {x : Int} (hx : 0 ≤ x) : i32 x ≤ x := by
  rw [i32, Int.bmod_def]
  split <;> omega

theorem iovOpDatatype_fits
    (hrun : iovOpDatatype env kind src dst n type proc blocking handle h = (.ok (), acts)) :
    ∃ mreg, gmrLookup env ((remoteOf kind src dst).headD 0) proc = .ok (some mreg) ∧
      ∀ seg ∈ (localOf kind src dst).zip (remoteOf kind src dst),
        SegmentFits (lowest (localOf kind src dst)) (mreg.slice proc).base
          (i32 (mreg.slice proc).size) type.size n seg.1 seg.2 := by
  obtain ⟨r, hlook, hrest⟩ := lift_bind_eq_ok.mp hrun
  obtain ⟨mreg, hfound, hrest⟩ := lift_bind_eq_ok.mp hrest
  obtain ⟨disps, hdisps, -⟩ := lift_bind_eq_ok.mp hrest
  obtain rfl := found_eq_ok.mp hfound
  refine ⟨mreg, hlook, fun seg hseg => ?_⟩
  obtain ⟨d, hd⟩ := mapM_eq_ok_mem hdisps seg hseg
  exact (segmentDisps_eq_ok.mp hd).1

-- ------------------------------
-- What is accepted
-- ------------------------------

def blockDisps (baseLoc winBase : Int) (k : Nat) (seg : Int × Int) : Int × Int :=
  (i32 ((seg.1 - baseLoc).tdiv k), i32 ((seg.2 - winBase).tdiv k))

/-- No assertion fails: each block passes the checks of `ARMCII_Iov_op_datatype`, and the
extent of each datatype the check of the accessor. -/
structure Accepts (env : Env) (kind : RmaKind) (src dst : List Int) (n : Nat) (type : Dtype)
    (slice : Slice) : Prop where
  blocks : ∀ seg ∈ (localOf kind src dst).zip (remoteOf kind src dst),
    SegmentFits (lowest (localOf kind src dst)) slice.base (i32 slice.size) type.size n seg.1 seg.2
  extents : ∀ disps, disps = ((localOf kind src dst).zip (remoteOf kind src dst)).map
      (blockDisps (lowest (localOf kind src dst)) slice.base type.size) →
    ∀ c ∈ chunks (chunkSize env disps.length) disps.length disps,
      (type.indexedBlock n (c.map Prod.snd)).trueExtent ≤ slice.size

/-- How a block that passes the checks can be outside the slice: it starts multiples of
`2 ^ 32` elements below an element of it, or so near to the end that its elements do not
fit, though as many bytes do. -/
def Slips (slice : Slice) (k n : Nat) (rem : Int) : Prop :=
  (∃ d j : Int, 0 ≤ d ∧ d < i32 slice.size ∧ 0 < j ∧ rem = slice.base + (d - 2 ^ 32 * j) * k) ∨
    slice.base + slice.size - n * k < rem ∧ rem ≤ slice.base + i32 slice.size - n

theorem gmrChunk_returns_iff {mreg : Gmr} {win : Win} {g : Nat} (hr : Reaches env mreg proc win g)
    (hpos : 0 < (mreg.slice proc).size) (baseLoc : Int) (disps : List (Int × Int)) :
    (gmrChunk env kind mreg baseLoc n type proc handle disps).Returns h ↔
      (type.indexedBlock n (disps.map Prod.snd)).trueExtent ≤ (mreg.slice proc).size := by
  have hdisp : mreg.disp proc 0 = 0 := if_pos rfl
  have hone : ((1 : Nat) : Int) * (type.indexedBlock n (disps.map Prod.snd)).trueExtent =
      (type.indexedBlock n (disps.map Prod.snd)).trueExtent := by rw [Nat.cast_one, Int.one_mul]
  have hcovers : mreg.Covers proc 0 1 (type.indexedBlock n (disps.map Prod.snd)) ↔
      (type.indexedBlock n (disps.map Prod.snd)).trueExtent ≤ (mreg.slice proc).size := by
    constructor
    · rintro ⟨-, -, hle⟩
      rwa [hdisp, hone, Int.zero_add] at hle
    · intro hle
      exact ⟨hdisp.ge, hdisp ▸ hpos, by rwa [hdisp, hone, Int.zero_add]⟩
  rw [← hcovers]
  have htyped : ∀ (atomic : Bool) loc locType,
      (gmrRmaTyped env kind atomic mreg loc 1 locType 0 1 (type.indexedBlock n (disps.map Prod.snd))
        proc handle).Returns h ↔
        mreg.Covers proc 0 1 (type.indexedBlock n (disps.map Prod.snd)) := by
    intro atomic loc locType
    constructor
    · rintro ⟨_, hrun⟩
      exact (gmrRmaTyped_eq_ok hr (Prod.ext hrun rfl)).1
    · exact fun hc => returns_of_ok (gmrRmaTyped_ok hr.ok hr.rank hc h)
  cases kind with
  | put | get | acc => exact htyped _ _ _

theorem iovOpDatatype_returns_iff {mreg : Gmr}
    (hlook : gmrLookup env ((remoteOf kind src dst).headD 0) proc = .ok (some mreg)) :
    (iovOpDatatype env kind src dst n type proc blocking handle).Returns h ↔
      Accepts env kind src dst n type (mreg.slice proc) := by
  obtain ⟨win, g, hr⟩ := gmrLookup_reaches hlook
  obtain ⟨-, hle, hlt⟩ := lookupIn_some hlook
  have hpos : 0 < (mreg.slice proc).size := by omega
  constructor
  · rintro ⟨_, hrun⟩
    obtain ⟨mreg', hlook', hfits⟩ := iovOpDatatype_fits (Prod.ext hrun rfl)
    obtain rfl : mreg = mreg' := Option.some.inj (Except.ok.inj (hlook.symm.trans hlook'))
    refine ⟨hfits, fun disps hdisps c hc => ?_⟩
    by_contra hlong
    have hmap := (mapM_eq_ok_iff fun seg d => segmentDisps_eq_ok).mpr ⟨hfits, hdisps⟩
    unfold iovOpDatatype at hrun
    simp only [hlook, lift_ok_bind, found, hmap] at hrun
    obtain ⟨_, a, b, hloop, -⟩ := bind_eq_ok.mp (Prod.ext hrun rfl)
    exact forEach_not_returns hc
      (fun h' hret => hlong ((gmrChunk_returns_iff hr hpos _ c).mp hret)) h (returns_of_ok hloop)
  · intro hacc
    have hmap := (mapM_eq_ok_iff fun seg d => segmentDisps_eq_ok).mpr ⟨hacc.blocks, rfl⟩
    unfold iovOpDatatype
    simp only [hlook, lift_ok_bind, found, hmap]
    refine returns_bind (returns_forEach (fun c hc h' => ?_) h) fun _ a _ => ?_
    · exact (gmrChunk_returns_iff hr hpos _ c).mpr (hacc.extents _ rfl c hc)
    · split
      · exact returns_of_ok (gmrFlush_ok hr.ok hr.rank _ _)
      · exact ⟨(), rfl⟩

-- ------------------------------
-- What is accepted and outside
-- ------------------------------

theorem Slips.outside {slice : Slice} {k : Nat} {rem : Int} (hk : 0 < k) (hn : 0 < n)
    (hs : Slips slice k n rem) :
    ∃ x, rem ≤ x ∧ x < rem + n * k ∧ ¬ slice.Contains x := by
  have hnk : (0 : Int) < n * k := by exact_mod_cast Nat.mul_pos hn hk
  rcases hs with ⟨d, j, hd, hlt, hj, rfl⟩ | ⟨hgap, -⟩
  · have hmax := i32_le slice.size
    have hneg : (d - 2 ^ 32 * j) * k < 0 :=
      Int.mul_neg_of_neg_of_pos (by unfold intMax at hmax; omega) (by omega)
    exact ⟨_, Int.le_refl _, by omega, fun hin => by have := hin.1; omega⟩
  · exact ⟨rem + n * k - 1, by omega, by omega, fun hin => by have := hin.2; omega⟩

theorem SegmentFits.inside {slice : Slice} {k : Nat} {baseLoc loc rem : Int} (hk : 0 < k)
    (hfit : SegmentFits baseLoc slice.base (i32 slice.size) k n loc rem)
    (hs : ¬ Slips slice k n rem) {x : Int} (hx : rem ≤ x) (hx' : x < rem + n * k) :
    slice.Contains x := by
  have hlength := hfit.length
  have hstop : rem + n * k ≤ slice.base + slice.size := by
    by_contra hlong
    exact hs (.inr ⟨by omega, by omega⟩)
  refine ⟨?_, by omega⟩
  by_contra hbelow
  -- the displacement of a start below the slice is not negative only if it wraps around
  obtain ⟨e, he⟩ := Int.dvd_of_tmod_eq_zero hfit.rem_mod
  have hdisp := hfit.disp
  rw [he, Int.mul_tdiv_cancel_left _ (by omega)] at hdisp
  have hneg : e < 0 := by
    by_contra hpos
    have := Int.mul_nonneg (show (0 : Int) ≤ k by omega) (Int.not_lt.mp hpos)
    omega
  refine hs (.inl ⟨i32 e, (i32 e - e) / 2 ^ 32, hdisp.1, hdisp.2, ?_, ?_⟩)
  · unfold i32 at hdisp ⊢
    rw [Int.bmod_def] at hdisp ⊢
    split at hdisp <;> split <;> omega
  · have hmul : 2 ^ 32 * ((i32 e - e) / 2 ^ 32) = i32 e - e := by
      unfold i32
      rw [Int.bmod_def]
      split <;> omega
    rw [hmul, Int.sub_sub_self, Int.mul_comm]
    omega

/-- No assertion failing means that all remote blocks lie in the slice, exactly if no accepted
block slips; a block of bytes slips only if it starts below the slice. -/
theorem datatype_checks_iff (env : Env) (kind : RmaKind) (src dst : List Int) (n : Nat)
    (type : Dtype) (proc : Nat) (blocking : Bool) (handle : Option Nat) (h : List Act) (mreg : Gmr)
    (hk : 0 < type.size) (hlen : src.length = dst.length)
    (hlook : gmrLookup env ((remoteOf kind src dst).headD 0) proc = .ok (some mreg)) :
    (((iovOpDatatype env kind src dst n type proc blocking handle).Returns h →
        ∀ rem ∈ remoteOf kind src dst, ∀ x, rem ≤ x → x < rem + n * type.size →
          (mreg.slice proc).Contains x) ↔
      (0 < n → Accepts env kind src dst n type (mreg.slice proc) →
        ∀ rem ∈ remoteOf kind src dst, ¬ Slips (mreg.slice proc) type.size n rem)) ∧
    (type.size = 1 → ∀ rem, (mreg.slice proc).base ≤ rem →
      ¬ Slips (mreg.slice proc) type.size n rem) := by
  refine ⟨⟨fun hin hn hacc rem hrem hs => ?_, fun hno hret rem hrem x hx hx' => ?_⟩,
    fun hone rem hle hs => ?_⟩
  · obtain ⟨x, hx, hx', hout⟩ := hs.outside hk hn
    exact hout (hin ((iovOpDatatype_returns_iff hlook).mpr hacc) rem hrem x hx hx')
  · have hacc := (iovOpDatatype_returns_iff hlook).mp hret
    have hn : 0 < n := Nat.pos_of_ne_zero fun hzero => by
      rw [hzero, Nat.cast_zero, Int.zero_mul] at hx'
      omega
    have hlens : (localOf kind src dst).length = (remoteOf kind src dst).length := by
      cases kind
      · exact hlen
      · exact hlen.symm
      · exact hlen
    obtain ⟨loc, hmem⟩ := mem_right_of_zip hlens hrem
    exact (hacc.blocks _ hmem).inside hk (hno hn hacc rem hrem) hx hx'
  · obtain ⟨-, hstart, hlt⟩ := lookupIn_some hlook
    have hsize := i32_le_self (show 0 ≤ (mreg.slice proc).size by omega)
    rw [hone] at hs
    rcases hs with ⟨d, j, hd, hdlt, hj, rfl⟩ | ⟨hgap, hfits⟩
    · have hmax := i32_le (mreg.slice proc).size
      unfold intMax at hmax
      omega
    · omega

end

/-- Two integers at the last one of the slice pass all checks. -/
theorem acc_past_slice :
    (iovOpDatatype selfRegionEnv .acc [16] [4156] 2 (.predefined .int) 0 true none).Returns [] ∧
      gmrLookup selfRegionEnv 4156 0 = .ok (some selfRegion) ∧
      4156 ≤ 4163 ∧ 4163 < 4156 + 2 * 4 ∧ ¬ (selfRegion.slice 0).Contains 4163 := by
  refine ⟨⟨(), rfl⟩, by rfl, by decide, by decide, by decide⟩

theorem datatype_checks_iff_acc :
    ((iovOpDatatype selfRegionEnv .acc [16] [4152] 2 (.predefined .int) 0 true none).Returns [] →
        ∀ rem ∈ [(4152 : Int)], ∀ x, rem ≤ x → x < rem + (2 : Nat) * (Dtype.predefined .int).size →
          (selfRegion.slice 0).Contains x) ∧
      ¬ ((iovOpDatatype selfRegionEnv .acc [16] [4156] 2 (.predefined .int) 0 true none).Returns [] →
        ∀ rem ∈ [(4156 : Int)], ∀ x, rem ≤ x → x < rem + (2 : Nat) * (Dtype.predefined .int).size →
          (selfRegion.slice 0).Contains x) := by
  have hiff := fun rem hlook => (datatype_checks_iff selfRegionEnv .acc [16] [rem] 2 (.predefined .int)
    0 true none [] selfRegion (by decide) rfl hlook).1
  refine ⟨(hiff 4152 rfl).mpr fun _ _ rem hrem => ?_, fun hin => ?_⟩
  · obtain rfl := List.mem_singleton.mp hrem
    rintro (⟨d, j, hd, hlt, hj, heq⟩ | ⟨hgap, -⟩)
    · have hlt' : d < 64 := hlt
      have heq' : (4152 : Int) = 4096 + (d - 2 ^ 32 * j) * 4 := heq
      omega
    · exact absurd hgap (by decide)
  · refine (hiff 4156 rfl).mp hin (by decide) ⟨?_, ?_⟩ 4156 (List.mem_singleton_self _)
      (.inr (by decide))
    · exact List.forall_mem_singleton.mpr ⟨by decide, by decide, by decide, by decide, by decide⟩
    · rintro disps rfl
      decide

/-- The blocks are in the slice, aligned, and their displacements fit an `int`. Then the
displacements are exact, and the call returns exactly if every block is within the size
that was converted to `int`, which it is in a slice of at most `INT_MAX` bytes. -/
theorem datatype_accepts_iff (env : Env) (kind : RmaKind) (b : BaseType) (src dst : List Int)
    (n proc : Nat) (mreg : Gmr) (hne : src.zip dst ≠ [])
    (hlook : gmrLookup env ((remoteOf kind src dst).headD 0) proc = .ok (some mreg))
    (hholds : ∀ seg ∈ src.zip dst, mreg.Holds proc (orient kind seg).2 (n * b.size))
    (halign : ∀ seg ∈ src.zip dst,
      mreg.Aligned proc b.size (lowest (localOf kind src dst)) (orient kind seg))
    (hdisp : ∀ seg ∈ src.zip dst,
      ((orient kind seg).2 - (mreg.slice proc).base) / b.size ≤ intMax)
    (blocking : Bool) (handle : Option Nat) (h : List Act) :
    (∀ seg ∈ src.zip dst, i32 (((orient kind seg).2 - (mreg.slice proc).base).tdiv b.size) * b.size =
      (orient kind seg).2 - (mreg.slice proc).base) ∧
    ((iovOpDatatype env kind src dst n (.predefined b) proc blocking handle).Returns h ↔
      ∀ seg ∈ src.zip dst,
        ((orient kind seg).2 - (mreg.slice proc).base) / b.size < i32 (mreg.slice proc).size ∧
        (orient kind seg).2 - (mreg.slice proc).base + n ≤ i32 (mreg.slice proc).size) ∧
    ((mreg.slice proc).size ≤ intMax →
      (iovOpDatatype env kind src dst n (.predefined b) proc blocking handle).Returns h) := by
  have htype : (Dtype.predefined b).size = b.size := Nat.mul_one _
  have hfits := fun seg hseg => segmentFits_iff (n := n) b.size_pos (halign seg hseg)
    (hholds seg hseg).ge (hdisp seg hseg) (i32 (mreg.slice proc).size)
  obtain ⟨win, g, hr⟩ := gmrLookup_reaches hlook
  refine ⟨fun seg hseg => ?_, ⟨fun ⟨_, hrun⟩ seg hseg => ?_, fun hcond => ?_⟩, fun hsize => ?_⟩
  · have hrem : 0 ≤ (orient kind seg).2 - (mreg.slice proc).base :=
      Int.sub_nonneg.mpr (hholds seg hseg).ge
    rw [Int.tdiv_eq_ediv_of_nonneg hrem,
      i32_of_range (Int.ediv_nonneg hrem (Int.natCast_nonneg _)) (hdisp seg hseg),
      Int.ediv_mul_cancel (halign seg hseg).rem_dvd]
  · obtain ⟨mreg', hlook', hall⟩ := iovOpDatatype_fits (Prod.ext hrun rfl)
    obtain rfl : mreg = mreg' := Option.some.inj (Except.ok.inj (hlook.symm.trans hlook'))
    rw [zip_orient, htype] at hall
    exact (hfits seg hseg).mp (hall _ (List.mem_map_of_mem hseg))
  · have hok : ∀ seg ∈ (src.zip dst).map (orient kind), segmentDisps (lowest (localOf kind src dst))
        (mreg.slice proc).base (i32 (mreg.slice proc).size) b.size n seg.1 seg.2 =
          .ok (segDisps b.size (lowest (localOf kind src dst)) (mreg.slice proc).base seg) := by
      intro seg hseg
      obtain ⟨s, hs, rfl⟩ := List.mem_map.mp hseg
      have hrun := segmentDisps_eq_ok.mpr ⟨(hfits s hs).mpr (hcond s hs), rfl⟩
      rw [hrun, ← (segmentDisps_exact b.size_pos (halign s hs).loc_ge (hholds s hs) hrun).2]
    obtain ⟨acts, hrun, -⟩ := sends_datatype hlook hr hne hholds halign (mapM_ok hok) blocking handle h
    exact returns_of_ok hrun
  · obtain ⟨acts, hrun, -⟩ := sends_iovOpDatatype hlook hr hsize hne hholds halign blocking handle h
    exact returns_of_ok hrun

def hugeRegion : Gmr := { selfRegion with slices := [⟨4096, 2 ^ 31⟩, ⟨0, 0⟩] }

def hugeEnv : Env where
  world := pairWorld
  cfg := defaultState
  regions := [hugeRegion]
  allocMem := fun _ _ => 0
  regions_ok := by
    intro r hr
    rw [List.mem_singleton.mp hr]
    exact ⟨_, selfRegion_resized (2 ^ 31)⟩

/-- Its first byte is turned down. -/
theorem huge_slice_rejected : hugeRegion.Holds 0 4096 1 ∧
    hugeRegion.Aligned 0 1 16 (16, 4096) ∧
    iovOpDatatype hugeEnv .put [16] [4096] 1 (.predefined .byte) 0 true none [] =
      (.error invalidRemote, []) :=
  ⟨⟨by decide, by decide, by decide⟩, ⟨by decide, by decide, by decide, by decide⟩, rfl⟩

theorem datatype_accepts_iff_small :
    (iovOpDatatype selfRegionEnv .acc [16] [4152] 2 (.predefined .int) 0 true none).Returns [] :=
  (datatype_accepts_iff selfRegionEnv .acc .int [16] [4152] 2 0 selfRegion (by decide) rfl
    (fun _ hseg => by
      rw [List.mem_singleton.mp hseg]
      exact ⟨by decide, by decide, by decide⟩)
    (fun _ hseg => by
      rw [List.mem_singleton.mp hseg]
      exact ⟨by decide, by decide, by decide, by decide⟩)
    (fun _ hseg => by
      rw [List.mem_singleton.mp hseg]
      decide) true none []).2.2 (by decide)

end ArmciMpi
