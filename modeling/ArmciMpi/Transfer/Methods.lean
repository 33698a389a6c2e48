import ArmciMpi.Runtime.Fence
import ArmciMpi.Transfer.Segments

/-!
# Vector methods agree

`Moved` says what a vector operation is for: every segment is moved once, and
nothing else changes. Both ways to send the segments do this
(`iov_methods_agree`), with any chunk size and any batch limit, conservatively or
not, blocking or not, whatever order the transfers in flight take.

Put and get move bytes: the dispatch gives a type to accumulates only. Local and
remote segments must not share a byte, since MPI gives operations on overlapping
buffers no meaning.
-/

namespace ArmciMpi

open Lib Script

-- ------------------------------
-- Segments and their elements
-- ------------------------------

/-- The location `i` bytes further. -/
def Loc.shift (l : Loc) (i : Int) : Loc := (l.1, l.2 + i)

theorem RmaKind.ends_shift (kind : RmaKind) (me proc : Nat) (seg : Int × Int) (i : Int) :
    kind.ends me proc (seg.1 + i, seg.2 + i) =
      (Loc.shift (kind.ends me proc seg).1 i, Loc.shift (kind.ends me proc seg).2 i) := by
  cases kind <;> rfl

theorem shift_subset {l : Loc} {j n : Nat} (hj : j < n) (k : Nat) :
    block (Loc.shift l (j * k)) k ⊆ block l (n * k) := by
  refine block_subset rfl ?_ ?_
  · show l.2 ≤ l.2 + (j * k : Int)
    have : (0 : Int) ≤ j * k := Int.mul_nonneg (by omega) (by omega)
    omega
  · show l.2 + (j * k : Int) + k ≤ l.2 + (n * k : Nat)
    have : (j + 1) * k ≤ n * k := Nat.mul_le_mul_right k hj
    rw [Nat.add_mul, Nat.one_mul] at this
    push_cast at this ⊢
    omega

theorem shift_disjoint (l : Loc) {i j : Nat} (hij : i < j) (k : Nat) :
    Disjoint (block (Loc.shift l (i * k)) k) (block (Loc.shift l (j * k)) k) := by
  refine block_disjoint fun _ => .inl ?_
  show l.2 + (i * k : Int) + k ≤ l.2 + (j * k : Int)
  have : (i + 1) * k ≤ j * k := Nat.mul_le_mul_right k hij
  rw [Nat.add_mul, Nat.one_mul] at this
  omega

section
variable {kind : RmaKind} {me proc : Nat} {k n : Nat} {segs : List (Int × Int)}

theorem map_segPairs (kind : RmaKind) (me proc k n : Nat) (seg : Int × Int) :
    (segPairs k n seg).map (kind.ends me proc) = (List.range n).map fun (j : Nat) =>
      (Loc.shift (kind.ends me proc seg).1 (j * k), Loc.shift (kind.ends me proc seg).2 (j * k)) := by
  rw [segPairs, List.map_map]
  exact List.map_congr_left fun j _ => kind.ends_shift me proc seg (j * k)

theorem mem_elems {e : Loc × Loc} :
    e ∈ (segs.flatMap (segPairs k n)).map (kind.ends me proc) ↔
      ∃ seg ∈ segs, ∃ j < n, e = (Loc.shift (kind.ends me proc seg).1 (j * k),
        Loc.shift (kind.ends me proc seg).2 (j * k)) := by
  simp only [List.map_flatMap, map_segPairs, List.mem_flatMap, List.mem_map, List.mem_range,
    eq_comm]

theorem Spread.elems (h : Spread (n * k) (segs.map (kind.ends me proc))) :
    Spread k ((segs.flatMap (segPairs k n)).map (kind.ends me proc)) := by
  constructor
  · rw [List.map_flatMap, List.pairwise_flatMap]
    simp only [map_segPairs, List.pairwise_map, List.mem_map, List.mem_range]
    refine ⟨fun seg _ => List.pairwise_lt_range.imp fun hij => shift_disjoint _ hij k, ?_⟩
    refine (List.pairwise_map.mp h.targets).imp fun hdisj => ?_
    rintro _ ⟨i, hi, rfl⟩ _ ⟨j, hj, rfl⟩
    exact hdisj.mono (shift_subset hi k) (shift_subset hj k)
  · intro e he e' he'
    obtain ⟨seg, hseg, j, hj, rfl⟩ := mem_elems.mp he
    obtain ⟨seg', hseg', j', hj', rfl⟩ := mem_elems.mp he'
    exact (h.sources _ (List.mem_map_of_mem hseg) _ (List.mem_map_of_mem hseg')).mono
      (shift_subset hj k) (shift_subset hj' k)

-- ------------------------------
-- What a vector operation does
-- ------------------------------

/-- Each segment, given by its local and its remote address, is moved once, element
by element, and nothing else changes. -/
structure Moved (kind : RmaKind) (b : BaseType) (me proc n : Nat) (segs : List (Int × Int))
    (m m' : Mem) : Prop where
  elems : ∀ seg ∈ segs, ∀ j < n,
    bytesAt m' (Loc.shift (kind.ends me proc seg).2 (j * b.size)) b.size =
      kind.fn b (bytesAt m (Loc.shift (kind.ends me proc seg).1 (j * b.size)) b.size)
        (bytesAt m (Loc.shift (kind.ends me proc seg).2 (j * b.size)) b.size)
  frame : ∀ l, (∀ seg ∈ segs, l ∉ block (kind.ends me proc seg).2 (n * b.size)) → m' l = m l

theorem mem_block_elem {l s : Loc} (hk : 0 < k) (h : l ∈ block s (n * k)) :
    ∃ j < n, l ∈ block (Loc.shift s (j * k)) k := by
  obtain ⟨i, hi, rfl⟩ := mem_block_iff.mp h
  refine ⟨i / k, Nat.div_lt_of_lt_mul (by rwa [Nat.mul_comm]), mem_block_iff.mpr
    ⟨i % k, Nat.mod_lt i hk, Prod.ext rfl ?_⟩⟩
  show s.2 + (i : Int) = s.2 + ((i / k : Nat) * k : Int) + (i % k : Nat)
  have hdiv : (i : Int) = (i / k : Nat) * k + (i % k : Nat) := by
    exact_mod_cast (Nat.div_add_mod' i k).symm
  omega

theorem Moved.unique {b : BaseType} {m m₁ m₂ : Mem} (h₁ : Moved kind b me proc n segs m m₁)
    (h₂ : Moved kind b me proc n segs m m₂) : m₁ = m₂ := by
  funext l
  by_cases hin : ∃ seg ∈ segs, l ∈ block (kind.ends me proc seg).2 (n * b.size)
  · obtain ⟨seg, hseg, hl⟩ := hin
    obtain ⟨j, hj, hl⟩ := mem_block_elem b.size_pos hl
    exact eqOn_block ((h₁.elems seg hseg j hj).trans (h₂.elems seg hseg j hj).symm) hl
  · have hout : ∀ seg ∈ segs, l ∉ block (kind.ends me proc seg).2 (n * b.size) :=
      fun seg hseg hl => hin ⟨seg, hseg, hl⟩
    rw [h₁.frame l hout, h₂.frame l hout]

theorem moved_moveAll {b : BaseType} (h : Spread (n * b.size) (segs.map (kind.ends me proc)))
    (m : Mem) :
    Moved kind b me proc n segs m (Xfer.applyAll (moveAll (kind.fn b) b.size
      ((segs.flatMap (segPairs b.size n)).map (kind.ends me proc))) m) where
  elems := fun seg hseg j hj =>
    moveAll_bytes (kind.keepsLength_fn b) h.elems m (mem_elems.mpr ⟨seg, hseg, j, hj, rfl⟩)
  frame := fun l hl => by
    refine moveAll_frame (s := {l}) (fun e he => ?_) m rfl
    obtain ⟨seg, hseg, j, hj, rfl⟩ := mem_elems.mp he
    exact Set.disjoint_singleton_right.mpr fun hmem => hl seg hseg (shift_subset hj _ hmem)

theorem Sends.moved {b : BaseType} {win : Win} {g : Nat} {acts : List Act}
    (hs : Sends kind b win g acts (segs.flatMap (segPairs b.size n)))
    (hrank : win.comm.rankOf proc = some g)
    (h : Spread (n * b.size) (segs.map (kind.ends me proc))) (m : Mem) :
    ∃ m', Completed me acts m m' ∧ Moved kind b me proc n segs m m' ∧
      ∀ m'', Completed me acts m m'' → m'' = m' := by
  have hx := hs.xfers hrank me
  have hfree : RaceFree ∅ (actSteps me acts) :=
    raceFree_of_indep (fun p hp => hp.elim) (by rw [← actXfers, hx]; exact h.elems.indep _)
  refine ⟨_, exists_completed me acts m, ?_, fun m'' h'' => Completed.memory hfree h''⟩
  rw [hx]
  exact moved_moveAll h m

end

structure SegsOk (env : Env) (kind : RmaKind) (b : BaseType) (src dst : List Int) (n proc : Nat)
    (mreg : Gmr) : Prop where
  fits : kind.Fits b
  nonempty : src.zip dst ≠ []
  region : gmrLookup env ((remoteOf kind src dst).headD 0) proc = .ok (some mreg)
  takes : ∀ seg ∈ src.zip dst, mreg.Takes proc (n * b.size) (orient kind seg)

structure VecOk (env : Env) (kind : RmaKind) (b : BaseType) (src dst : List Int) (n proc : Nat)
    (mreg : Gmr) : Prop extends SegsOk env kind b src dst n proc mreg where
  size : (mreg.slice proc).size ≤ intMax
  aligned : ∀ seg ∈ src.zip dst,
    mreg.Aligned proc b.size (lowest (localOf kind src dst)) (orient kind seg)
  spread : Spread (n * b.size) (((src.zip dst).map (orient kind)).map (kind.ends env.me proc))

theorem allPairs_eq (kind : RmaKind) (k n : Nat) (segs : List (Int × Int)) :
    allPairs kind k n segs = (segs.map (orient kind)).flatMap (segPairs k n) := by
  rw [allPairs, List.flatMap_map]

/-- Both methods return, and all their completed runs end in one memory, in which
every segment has been moved once. -/
theorem iov_methods_agree {env : Env} {kind : RmaKind} {b : BaseType} {src dst : List Int}
    {n proc : Nat} {mreg : Gmr} (hv : VecOk env kind b src dst n proc mreg)
    (consrv blocking : Bool) (handle : Option Nat) (h : List Act) (m : Mem) :
    ∃ acts acts' m',
      iovOpDatatype env kind src dst n (.predefined b) proc blocking handle h = (.ok (), acts) ∧
      iovOpBatched env kind src dst n (.predefined b) proc consrv blocking handle h =
        (.ok (), acts') ∧
      Moved kind b env.me proc n ((src.zip dst).map (orient kind)) m m' ∧
      Completed env.me acts m m' ∧ Completed env.me acts' m m' ∧
      ∀ m'', Completed env.me acts m m'' ∨ Completed env.me acts' m m'' → m'' = m' := by
  obtain ⟨win, g, hr⟩ := gmrLookup_reaches hv.region
  have hclose : Sends kind b win g (closing env kind win g blocking) [] := by
    unfold closing
    split
    · exact sends_flush env _
    · exact sends_nil
  obtain ⟨a, ha, hsa⟩ := sends_iovOpDatatype (b := b) hv.region hr hv.size hv.nonempty
    (fun seg hseg => (hv.takes seg hseg).holds) hv.aligned blocking handle h
  obtain ⟨a', ha', hsa'⟩ := sends_iovOpBatched hv.region hr hv.fits hv.nonempty hv.takes consrv
    blocking handle h
  have hall := hsa.append hclose
  have hall' := hsa'.append hclose
  rw [List.append_nil, allPairs_eq] at hall hall'
  obtain ⟨m₁, hrun, hmoved, hunique⟩ := hall.moved hr.rank hv.spread m
  obtain ⟨m₂, hrun', hmoved', hunique'⟩ := hall'.moved hr.rank hv.spread m
  obtain rfl := hmoved.unique hmoved'
  exact ⟨_, _, m₁, ha, ha', hmoved, hrun, hrun', fun m'' h'' => h''.elim (hunique m'') (hunique' m'')⟩

/-- Two integers, the higher address first, are accumulated into a region of the
caller. -/
theorem vecOk_swapped :
    VecOk selfRegionEnv .acc .int [24, 16] [4096, 4104] 1 0 selfRegion where
  fits := .inl rfl
  nonempty := by decide
  region := rfl
  size := by decide
  takes := by
    rintro seg (_ | ⟨_, _ | ⟨_, h⟩⟩)
    · exact ⟨by decide, by decide, by decide, by decide⟩
    · exact ⟨by decide, by decide, by decide, by decide⟩
    · cases h
  aligned := by
    rintro seg (_ | ⟨_, _ | ⟨_, h⟩⟩)
    · exact ⟨by decide, by decide, by decide, by decide⟩
    · exact ⟨by decide, by decide, by decide, by decide⟩
    · cases h
  spread := by
    constructor
    · exact List.pairwise_pair.mpr (block_disjoint fun _ => .inl (by decide))
    · intro e he e' he'
      have hfar : ∀ e ∈ ([(24, 4096), (16, 4104)].map (orient .acc)).map (RmaKind.acc.ends 0 0),
          e.1.2 + 4 ≤ 4096 ∧ 4096 ≤ e.2.2 := by decide
      exact block_disjoint fun _ => .inl ((hfar e he).1.trans (hfar e' he').2)

theorem iov_methods_agree_swapped :
    ∃ m', Moved .acc .int 0 0 1 [(24, 4096), (16, 4104)] (fun _ => 0) m' := by
  obtain ⟨_, _, m', -, -, hmoved, -⟩ := iov_methods_agree vecOk_swapped false true none [] fun _ => 0
  exact ⟨m', hmoved⟩

end ArmciMpi
