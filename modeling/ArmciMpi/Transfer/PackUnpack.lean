import ArmciMpi.Transfer.StridedCalls
import ArmciMpi.Transfer.StridedInts

/-!
# Packing and unpacking strided regions

`armci_write_strided` copies the segments of a region into the slots of a packed
buffer, `armci_read_strided` copies the slots back. Both are `copyAll` for one
numbering of segments and slots, so that one after the other copies segment to
segment or slot to slot.
-/

namespace ArmciMpi

open Lib Script

/-- The address of the `n`-th segment of a region. -/
def segmentAt (base : Int) (stride : Nat → Int) (count : Nat → Nat) (levels n : Nat) : Int :=
  base + ∑ i ∈ Finset.range levels, stride i * digit count i n

def SegmentsApart (me : Nat) (base : Int) (stride : Nat → Int) (count : Nat → Nat) (levels : Nat) :
    Prop :=
  ∀ i j, i < j → j < blockCount count levels →
    Disjoint (block (me, segmentAt base stride count levels i) (count 0))
      (block (me, segmentAt base stride count levels j) (count 0))

def BufferApart (me : Nat) (buf base : Int) (stride : Nat → Int) (count : Nat → Nat)
    (levels : Nat) : Prop :=
  ∀ n < blockCount count levels,
    Disjoint (block (me, segmentAt base stride count levels n) (count 0))
      (block (me, buf) (blockCount count levels * count 0))

/-- The address of the `n`-th slot of a packed buffer. -/
def slotAt (buf : Int) (size n : Nat) : Int := buf + n * size

-- ------------------------------
-- Numbered copies
-- ------------------------------

def copyAll (size len : Nat) (source target : Nat → Int) : List Act :=
  packActs size ((List.range len).map fun n => (source n, target n))

def afterCopies (me size len : Nat) (source target : Nat → Int) (m : Mem) : Mem :=
  Xfer.applyAll (actXfers me (copyAll size len source target)) m

section
variable {me size len : Nat} {source target : Nat → Int}

theorem copyAll_xfers (me size len : Nat) (source target : Nat → Int) :
    actXfers me (copyAll size len source target) =
      moveAll (fun x _ => x) size
        ((List.range len).map fun n => ((me, source n), (me, target n))) := by
  rw [copyAll, packActs_xfers, List.map_map]
  rfl

theorem afterCopies_bytes
    (htargets : ∀ i j, i < j → j < len →
      Disjoint (block (me, target i) size) (block (me, target j) size))
    (hsources : ∀ i < len, ∀ j < len,
      Disjoint (block (me, source i) size) (block (me, target j) size))
    (m : Mem) {n : Nat} (hn : n < len) :
    bytesAt (afterCopies me size len source target m) (me, target n) size =
      bytesAt m (me, source n) size := by
  have hspread : Spread size ((List.range len).map fun n => ((me, source n), (me, target n))) := by
    constructor
    · rw [List.pairwise_map]
      exact List.pairwise_lt_range.imp_of_mem fun {i j} _ hj hij =>
        htargets i j hij (List.mem_range.mp hj)
    · intro e he e' he'
      obtain ⟨i, hi, rfl⟩ := List.mem_map.mp he
      obtain ⟨j, hj, rfl⟩ := List.mem_map.mp he'
      exact hsources i (List.mem_range.mp hi) j (List.mem_range.mp hj)
  rw [afterCopies, copyAll_xfers]
  exact moveAll_bytes (fun _ _ hx _ => hx) hspread m (List.mem_map_of_mem (List.mem_range.mpr hn))

theorem afterCopies_frame (source : Nat → Int) (m : Mem) {l : Loc}
    (hl : ∀ n < len, l ∉ block (me, target n) size) : afterCopies me size len source target m l = m l := by
  rw [afterCopies, copyAll_xfers]
  refine moveAll_frame (s := {l}) (fun e he => ?_) m rfl
  obtain ⟨n, hn, rfl⟩ := List.mem_map.mp he
  exact Set.disjoint_singleton_right.mpr (hl n (List.mem_range.mp hn))

theorem afterCopies_twice {source' target' : Nat → Int} {m m' : Mem}
    (hrun : Completed me (copyAll size len source target ++ copyAll size len source' target') m m') :
    m' = afterCopies me size len source' target' (afterCopies me size len source target m) := by
  have hnow : OnlyNow (actSteps me
      (copyAll size len source target ++ copyAll size len source' target')) := by
    rw [actSteps_append]
    exact List.forall_mem_append.mpr ⟨packActs_now _ _ _, packActs_now _ _ _⟩
  rw [hrun.memory hnow.raceFree, actXfers_append, Xfer.applyAll_append]
  rfl

end

-- ------------------------------
-- The two functions
-- ------------------------------

section
variable {stride : Nat → Int} {count : Nat → Nat} {levels : Nat}

theorem userBlocks_eq_segments (base : Int) (stride : Nat → Int)
    (hpos : ∀ i < levels, 1 ≤ count (i + 1)) :
    userBlocks base stride count levels =
      (List.range (blockCount count levels)).map (segmentAt base stride count levels) := by
  obtain ⟨iov, hok, hsrc, -⟩ := stridedToIov_eq base stride base stride hpos
  obtain ⟨iov', hok', -, hsrc', -⟩ := stridedToIov_eq_digits base base stride stride hpos
  obtain rfl := Except.ok.inj (hok.symm.trans hok')
  exact hsrc.symm.trans hsrc'

theorem PackFits.write_run (hfits : PackFits stride count levels) (src buf : Int) (h : List Act) :
    armciWriteStridedInt src levels stride count buf h =
      (.ok (), copyAll (count 0) (blockCount count levels) (segmentAt src stride count levels)
        (slotAt buf (count 0))) := by
  rw [hfits.write_eq, armciWriteStrided_run _ _ hfits.pos, userBlocks_eq_segments _ _ hfits.pos,
    List.length_map, List.length_range, contigBufs, List.zip_map']
  rfl

theorem PackFits.read_run (hfits : PackFits stride count levels) (dst buf : Int) (h : List Act) :
    armciReadStridedInt dst levels stride count buf h =
      (.ok (), copyAll (count 0) (blockCount count levels) (slotAt buf (count 0))
        (segmentAt dst stride count levels)) := by
  rw [hfits.read_eq, armciReadStrided_run _ _ hfits.pos, userBlocks_eq_segments _ _ hfits.pos,
    List.length_map, List.length_range, contigBufs, List.zip_map']
  rfl

section
variable {me : Nat} {buf base : Int}

theorem slot_subset (me : Nat) (buf : Int) {n len : Nat} (hn : n < len) (size : Nat) :
    block (me, slotAt buf size n) size ⊆ block (me, buf) (len * size) :=
  shift_subset (l := (me, buf)) hn size

theorem bytesAt_slots (m : Mem) (me : Nat) (buf : Int) (len size : Nat) :
    bytesAt m (me, buf) (len * size) =
      (List.range len).flatMap fun n => bytesAt m (me, slotAt buf size n) size := by
  rw [bytesAt, range_mul_flatMap]
  refine List.flatMap_congr fun n _ => List.map_congr_left fun i _ => ?_
  rw [slotAt]
  push_cast
  rw [Int.add_assoc]

theorem packed_bytes (hbuf : BufferApart me buf base stride count levels) (m : Mem) {n : Nat}
    (hn : n < blockCount count levels) :
    bytesAt (afterCopies me (count 0) (blockCount count levels) (segmentAt base stride count levels)
        (slotAt buf (count 0)) m) (me, slotAt buf (count 0) n) (count 0) =
      bytesAt m (me, segmentAt base stride count levels n) (count 0) :=
  afterCopies_bytes (fun _ _ hij _ => shift_disjoint (me, buf) hij (count 0))
    (fun i hi _ hj => (hbuf i hi).mono_right (slot_subset me buf hj _)) m hn

theorem unpacked_bytes (hapart : SegmentsApart me base stride count levels)
    (hbuf : BufferApart me buf base stride count levels) (m : Mem) {n : Nat}
    (hn : n < blockCount count levels) :
    bytesAt (afterCopies me (count 0) (blockCount count levels) (slotAt buf (count 0))
        (segmentAt base stride count levels) m) (me, segmentAt base stride count levels n) (count 0) =
      bytesAt m (me, slotAt buf (count 0) n) (count 0) :=
  afterCopies_bytes hapart (fun _ hi j hj => (hbuf j hj).symm.mono_left (slot_subset me buf hi _)) m hn

end

end

/-- Packing one region and unpacking into another copies segment to segment and
changes nothing else but the buffer. Unpacking a buffer and packing the region again
gives the buffer back. -/
theorem pack_unpack_round_trip (me : Nat) (src dst buf buf' : Int) (srcStride dstStride : Nat → Int)
    (count : Nat → Nat) (levels : Nat) (hsrc : PackFits srcStride count levels)
    (hdst : PackFits dstStride count levels) (hapart : SegmentsApart me dst dstStride count levels)
    (hsrcBuf : BufferApart me buf src srcStride count levels)
    (hdstBuf : BufferApart me buf dst dstStride count levels)
    (hdstBuf' : BufferApart me buf' dst dstStride count levels) (h : List Act) :
    (∃ acts, (do armciWriteStridedInt src levels srcStride count buf
                 armciReadStridedInt dst levels dstStride count buf) h = (.ok (), acts) ∧
      ∀ m m', Completed me acts m m' →
        (∀ n < blockCount count levels,
          bytesAt m' (me, segmentAt dst dstStride count levels n) (count 0) =
            bytesAt m (me, segmentAt src srcStride count levels n) (count 0)) ∧
        ∀ l ∉ block (me, buf) (blockCount count levels * count 0),
          (∀ n < blockCount count levels,
            l ∉ block (me, segmentAt dst dstStride count levels n) (count 0)) → m' l = m l) ∧
    ∃ acts, (do armciReadStridedInt dst levels dstStride count buf
                armciWriteStridedInt dst levels dstStride count buf') h = (.ok (), acts) ∧
      ∀ m m', Completed me acts m m' →
        bytesAt m' (me, buf') (blockCount count levels * count 0) =
          bytesAt m (me, buf) (blockCount count levels * count 0) := by
  refine ⟨⟨_, bind_ok (hsrc.write_run src buf h) (hdst.read_run dst buf _), fun m m' hrun => ?_⟩,
    _, bind_ok (hdst.read_run dst buf h) (hdst.write_run dst buf' _), fun m m' hrun => ?_⟩
  · obtain rfl := afterCopies_twice hrun
    refine ⟨fun n hn => ?_, fun l hl hout => ?_⟩
    · rw [unpacked_bytes hapart hdstBuf _ hn, packed_bytes hsrcBuf m hn]
    · rw [afterCopies_frame _ _ hout]
      exact afterCopies_frame _ _ fun n hn hmem => hl (slot_subset me buf hn _ hmem)
  · obtain rfl := afterCopies_twice hrun
    rw [bytesAt_slots, bytesAt_slots]
    refine List.flatMap_congr fun n hn => ?_
    have hn := List.mem_range.mp hn
    rw [packed_bytes hdstBuf' _ hn, unpacked_bytes hapart hdstBuf m hn]

theorem segmentAt_rows (base stride : Int) {bytes rows n : Nat} (hn : n < rows) :
    segmentAt base (fun _ => stride) (rowCounts bytes rows) 1 n = base + stride * n := by
  have hdigit : digit (rowCounts bytes rows) 0 n = n := by
    rw [digit_zero]
    exact Nat.mod_eq_of_lt hn
  rw [segmentAt, Finset.sum_range_one, hdigit]

theorem blockCount_rows (bytes rows : Nat) : blockCount (rowCounts bytes rows) 1 = rows :=
  Finset.prod_range_one _

/-- Four rows of eight bytes, packed from one matrix and unpacked into another one
that is stored upside down. -/
theorem pack_unpack_round_trip_rows :
    ∃ acts, (do armciWriteStridedInt 0 1 (fun _ => 64) (rowCounts 8 4) 8192
                armciReadStridedInt 4096 1 (fun _ => -128) (rowCounts 8 4) 8192) [] =
        (.ok (), acts) ∧
      ∀ m m', Completed 0 acts m m' → bytesAt m' (0, 3712) 8 = bytesAt m (0, 192) 8 := by
  have hsrc : PackFits (fun _ => 64) (rowCounts 8 4) 1 :=
    ⟨by decide, by decide, indicesFit_of_abs (by decide), by decide⟩
  have hdst : PackFits (fun _ => -128) (rowCounts 8 4) 1 :=
    ⟨by decide, by decide, indicesFit_of_abs (by decide), by decide⟩
  have hapart : SegmentsApart 0 4096 (fun _ => -128) (rowCounts 8 4) 1 := by
    intro i j hij hj
    rw [blockCount_rows] at hj
    rw [segmentAt_rows _ _ hj, segmentAt_rows _ _ (hij.trans hj)]
    refine block_disjoint fun _ => .inr ?_
    show (4096 : Int) + -128 * j + 8 ≤ 4096 + -128 * i
    omega
  have hbuf : ∀ base stride : Int, (∀ n : Nat, n < 4 → base + stride * n + 8 ≤ 8192) →
      BufferApart 0 8192 base (fun _ => stride) (rowCounts 8 4) 1 := by
    intro base stride hbelow n hn
    rw [blockCount_rows] at hn
    rw [segmentAt_rows _ _ hn]
    exact block_disjoint fun _ => .inl (hbelow n hn)
  have hdstBuf := hbuf 4096 (-128) (by omega)
  obtain ⟨⟨acts, hrun, hafter⟩, -⟩ := pack_unpack_round_trip 0 0 4096 8192 8192 (fun _ => 64)
    (fun _ => -128) (rowCounts 8 4) 1 hsrc hdst hapart (hbuf 0 64 (by omega)) hdstBuf hdstBuf []
  refine ⟨acts, hrun, fun m m' hdone => ?_⟩
  have hlast := (hafter m m' hdone).1 3 (by decide)
  rwa [segmentAt_rows _ _ (by decide), segmentAt_rows _ _ (by decide)] at hlast

end ArmciMpi
