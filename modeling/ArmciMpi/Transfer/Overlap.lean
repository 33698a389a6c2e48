import ArmciMpi.ConflictTree.Destroy
import ArmciMpi.Runtime.Fence
import ArmciMpi.Transfer.Vector

/-!
# The overlap check

`ARMCII_Iov_check_overlap` inserts the segments into a conflict tree until one
of them meets an earlier one. Built with `NO_USE_CTREE` it compares all pairs.
`overlap_check_agrees` says that both versions give the same answer, and that
it is the right one. `overlap_check_frees` adds the memory of the tree, which is
destroyed on both ways out.
-/

namespace ArmciMpi

open Lib ConflictTree

-- ------------------------------
-- All pairs
-- ------------------------------

/-- The test of the inner loop on two segments of `size` bytes. -/
def segmentsOverlap (size : Nat) (ptr1 ptr2 : Int) : Bool :=
  let ptr1Hi := ptr1 + size - 1
  let ptr2Hi := ptr2 + size - 1
  (ptr1 ≥ ptr2 ∧ ptr1 ≤ ptr2Hi) ∨ (ptr1Hi ≥ ptr2 ∧ ptr1Hi ≤ ptr2Hi) ∨
    (ptr1 < ptr2 ∧ ptr1Hi > ptr2Hi)

def overlapPairs (size : Nat) : List Int → Bool
  | [] => false
  | ptr :: ptrs => if ptrs.any (segmentsOverlap size ptr) then true else overlapPairs size ptrs

def iovCheckOverlapPairs (env : Env) (ptrs : List Int) (size : Nat) : Bool :=
  if !env.cfg.iovChecks then false else overlapPairs size ptrs

section
variable {size : Nat}

theorem segmentsOverlap_iff (hsize : 1 ≤ size) (p q : Int) :
    segmentsOverlap size p q = true ↔ |p - q| < size := by
  rw [abs_lt]
  simp only [segmentsOverlap, decide_eq_true_eq]
  omega

theorem overlapPairs_cons (p : Int) (ps : List Int) :
    overlapPairs size (p :: ps) = true ↔
      (∃ q ∈ ps, segmentsOverlap size p q = true) ∨ overlapPairs size ps = true := by
  simp [overlapPairs]

theorem overlapPairs_iff (hsize : 1 ≤ size) (ptrs : List Int) :
    overlapPairs size ptrs = true ↔
      ∃ (i j : Nat) (p q : Int), i < j ∧ ptrs[i]? = some p ∧ ptrs[j]? = some q ∧
        |p - q| < size := by
  induction ptrs with
  | nil => simp [overlapPairs]
  | cons p ps ih =>
    rw [overlapPairs_cons, ih]
    constructor
    · rintro (⟨q, hq, hover⟩ | ⟨i, j, p', q, hij, hp, hq, hlt⟩)
      · obtain ⟨j, hj⟩ := List.mem_iff_getElem?.mp hq
        exact ⟨0, j + 1, p, q, by omega, rfl, by simpa using hj,
          (segmentsOverlap_iff hsize p q).mp hover⟩
      · exact ⟨i + 1, j + 1, p', q, by omega, by simpa using hp, by simpa using hq, hlt⟩
    · rintro ⟨i, j, p', q, hij, hp, hq, hlt⟩
      obtain ⟨j, rfl⟩ : ∃ k, j = k + 1 := ⟨j - 1, by omega⟩
      rw [List.getElem?_cons_succ] at hq
      cases i with
      | zero =>
        cases hp
        exact .inl ⟨q, List.mem_of_getElem? hq, (segmentsOverlap_iff hsize p q).mpr hlt⟩
      | succ i => exact .inr ⟨i, j, p', q, by omega, by simpa using hp, hq, hlt⟩

-- ------------------------------
-- The conflict tree
-- ------------------------------

/-- The loop ends at the first segment that meets an earlier one or a stored range. The
node that is looked up for the debug message exists. -/
theorem overlapLoop_ok {ctree : CTree} {t : BinTree Cell} (hw : WellFormed ctree t)
    (hsize : 1 ≤ size) (ptrs : List Int) :
    ∃ b, overlapLoop size ctree ptrs = .ok b ∧
      (b = true ↔ (∃ p ∈ ptrs, ∃ x ∈ t.inorder, x.Meets p (p + size - 1)) ∨
        overlapPairs size ptrs = true) := by
  induction ptrs generalizing ctree t with
  | nil => exact ⟨false, rfl, by simp [overlapPairs]⟩
  | cons p ps ih =>
    have hle : p ≤ p + size - 1 := by omega
    rw [overlapPairs_cons]
    obtain ⟨⟨x, hx, hmeet⟩, s', he, hw', -⟩ |
      ⟨hnone, s', t', pre, post, c, he, hw', hlo, hhi, ht, ht'⟩ := ctreeInsert_ok hw hle
    · obtain ⟨y, hy, -, hloc⟩ | ⟨hnone, -⟩ := hw'.locate hle
      · obtain ⟨n, hn, -⟩ := hw'.rep.cell_bounds hy
        refine ⟨true, ?_, iff_of_true rfl (.inl ⟨p, List.mem_cons_self, x, hx, hmeet⟩)⟩
        rw [overlapLoop, he, ok_bind]
        simp only [hloc, ok_bind, Heap.get_ok hn, ↓reduceIte]
        rfl
      · exact absurd hmeet (hnone x hx)
    · obtain ⟨b, hb, hiff⟩ := ih hw'
      refine ⟨b, by rw [overlapLoop, he, ok_bind]; exact hb, ?_⟩
      -- the new node holds the segment itself
      have hmem : ∀ x, x ∈ t'.inorder ↔ x = c ∨ x ∈ t.inorder := by
        intro x
        rw [ht', ht]
        simp only [List.mem_append, List.mem_cons]
        tauto
      have hnew : ∀ q, c.Meets q (q + size - 1) ↔ segmentsOverlap size p q = true := by
        intro q
        rw [segmentsOverlap_iff hsize, abs_lt, Cell.Meets, hlo, hhi]
        omega
      rw [hiff]
      constructor
      · rintro (⟨q, hq, x, hx, hmeet⟩ | hpairs)
        · rcases (hmem x).mp hx with rfl | hx
          · exact .inr (.inl ⟨q, hq, (hnew q).mp hmeet⟩)
          · exact .inl ⟨q, List.mem_cons_of_mem p hq, x, hx, hmeet⟩
        · exact .inr (.inr hpairs)
      · rintro (⟨q, hq, x, hx, hmeet⟩ | ⟨q, hq, hover⟩ | hpairs)
        · rcases List.mem_cons.mp hq with rfl | hq
          · exact absurd hmeet (hnone x hx)
          · exact .inl ⟨q, hq, x, (hmem x).mpr (.inr hx), hmeet⟩
        · exact .inl ⟨q, hq, c, (hmem c).mpr (.inl rfl), (hnew q).mpr hover⟩
        · exact .inr hpairs

theorem iovCheckOverlap_apart (env : Env) (hsize : 0 < size) {ptrs : List Int}
    (hptrs : ptrs.Pairwise fun p q : Int => p + size ≤ q ∨ q + size ≤ p) :
    iovCheckOverlap env ptrs size = .ok false := by
  unfold iovCheckOverlap
  split
  · rfl
  · obtain ⟨b, hb, hiff⟩ := overlapLoop_ok wellFormed_empty hsize ptrs
    cases b with
    | false => exact hb
    | true =>
      rcases hiff.mp rfl with ⟨p, -, x, hx, -⟩ | hpairs
      · cases hx
      · obtain ⟨i, j, p, q, hij, hp, hq, hlt⟩ := (overlapPairs_iff hsize ptrs).mp hpairs
        obtain ⟨hi, rfl⟩ := List.getElem?_eq_some_iff.mp hp
        obtain ⟨hj, rfl⟩ := List.getElem?_eq_some_iff.mp hq
        have hapart := List.pairwise_iff_getElem.mp hptrs i j hi hj hij
        rw [abs_lt] at hlt
        omega

def segmentRange (hsize : 1 ≤ size) (ptr : Int) : Range := ⟨ptr, ptr + size - 1, by omega⟩

/-- The conflict tree and the comparison of all pairs agree: they find an overlap exactly
if two segments are less than a size apart. Where an insertion fails, the search that
follows finds a node. -/
theorem overlap_check_agrees (env : Env) (hchecks : env.cfg.iovChecks = true) (ptrs : List Int)
    (hsize : 1 ≤ size) :
    iovCheckOverlap env ptrs size = .ok (iovCheckOverlapPairs env ptrs size) ∧
    (iovCheckOverlapPairs env ptrs size = true ↔ ∃ (i j : Nat) (p q : Int),
      i < j ∧ ptrs[i]? = some p ∧ ptrs[j]? = some q ∧ |p - q| < size) ∧
    ∀ done ptr s s' accepted, done ++ [ptr] <+: ptrs →
      insertAll ctreeEmpty (done.map (segmentRange hsize)) = .ok (s, accepted) →
      ctreeInsert s ptr (ptr + size - 1) = .ok (s', true) →
        ∃ p, ctreeLocate s'.heap.next s'.heap s'.root ptr (ptr + size - 1) = .ok (some p) := by
  have hpairs : iovCheckOverlapPairs env ptrs size = overlapPairs size ptrs := by
    simp [iovCheckOverlapPairs, hchecks]
  rw [hpairs]
  refine ⟨?_, overlapPairs_iff hsize ptrs, fun done ptr s s' accepted _ hrun hins => ?_⟩
  · obtain ⟨b, hb, hiff⟩ := overlapLoop_ok wellFormed_empty hsize ptrs
    have heq : b = overlapPairs size ptrs := by
      rw [Bool.eq_iff_iff, hiff]
      simp
    simp [iovCheckOverlap, hchecks, hb, heq]
  · obtain ⟨s₀, t, accepted₀, hrun₀, hw, -⟩ :=
      insertAll_ok wellFormed_empty (done.map (segmentRange hsize))
    cases hrun.symm.trans hrun₀
    have hle : ptr ≤ ptr + size - 1 := by omega
    obtain ⟨⟨x, hx, hmeet⟩, s₁, he, hw', -⟩ | ⟨-, s₁, t', pre, post, c, he, -⟩ :=
      ctreeInsert_ok hw hle
    · cases hins.symm.trans he
      obtain ⟨y, -, -, hloc⟩ | ⟨hnone, -⟩ := hw'.locate hle
      · exact ⟨y.ptr, hloc⟩
      · exact absurd hmeet (hnone x hx)
    · cases hins.symm.trans he

end

def checkedEnv : Env where
  world := pairWorld
  cfg := { defaultState with iovChecks := true }
  regions := []
  allocMem _ _ := 0
  regions_ok := fun _ h => absurd h List.not_mem_nil

theorem overlap_check_agrees_touching :
    iovCheckOverlap checkedEnv [64, 68, 64] 4 = .ok true ∧
      iovCheckOverlap checkedEnv [64, 68, 60] 4 = .ok false :=
  ⟨(overlap_check_agrees checkedEnv rfl [64, 68, 64] (by decide)).1,
    (overlap_check_agrees checkedEnv rfl [64, 68, 60] (by decide)).1⟩

-- ------------------------------
-- Memory
-- ------------------------------

/-- The loop with the `ctree_destroy` before each return; `frames` is what the recursion of
that call may nest. -/
def overlapLoopMem (frames size : Nat) (ctree : CTree) : List Int → Except String (CTree × Bool)
  | [] => do
    let ctree ← ctreeDestroy frames ctree
    return (ctree, false)
  | ptr :: ptrs => do
    let (ctree, conflict) ← ctreeInsert ctree ptr (ptr + size - 1)
    if conflict then
      let cnode ← ctreeLocate ctree.heap.next ctree.heap ctree.root ptr (ptr + size - 1)
      let _ ← ctree.heap.get cnode
      let ctree ← ctreeDestroy frames ctree
      return (ctree, true)
    else overlapLoopMem frames size ctree ptrs

def iovCheckOverlapMem (frames : Nat) (env : Env) (ptrs : List Int) (size : Nat) :
    Except String (CTree × Bool) :=
  if !env.cfg.iovChecks then .ok (ctreeEmpty, false) else overlapLoopMem frames size ctreeEmpty ptrs

section
variable {size frames : Nat}

theorem overlapLoopMem_ok {ctree : CTree} {t : BinTree Cell} (hw : WellFormed ctree t)
    (hsize : 1 ≤ size) (ptrs : List Int)
    (hframes : 2 * Nat.log 2 (t.inorder.length + ptrs.length + 1) + 1 ≤ frames) :
    ∃ s b, overlapLoopMem frames size ctree ptrs = .ok (s, b) ∧
      overlapLoop size ctree ptrs = .ok b ∧ s.root = none ∧ ∀ p, s.heap.cell p = none := by
  have hfits : ∀ k ≤ ptrs.length, 2 * Nat.log 2 (t.inorder.length + k + 1) + 1 ≤ frames := by
    intro k hk
    have := Nat.log_mono_right (b := 2)
      (by omega : t.inorder.length + k + 1 ≤ t.inorder.length + ptrs.length + 1)
    omega
  induction ptrs generalizing ctree t with
  | nil =>
    obtain ⟨s, he, hroot, hnone⟩ := hw.destroy (hfits 0 (Nat.zero_le _))
    exact ⟨s, false, by simp only [overlapLoopMem, he, ok_bind, pure_eq_ok], rfl, hroot, hnone⟩
  | cons p ps ih =>
    have hle : p ≤ p + size - 1 := by omega
    obtain ⟨⟨x, hx, hmeet⟩, s', he, hw', -⟩ |
      ⟨-, s', t', pre, post, c, he, hw', -, -, ht, ht'⟩ := ctreeInsert_ok hw hle
    · obtain ⟨y, hy, -, hloc⟩ | ⟨hnone, -⟩ := hw'.locate hle
      · obtain ⟨n, hn, -⟩ := hw'.rep.cell_bounds hy
        obtain ⟨s, hs, hroot, hfree⟩ := hw'.destroy (hfits 0 (Nat.zero_le _))
        refine ⟨s, true, ?_, ?_, hroot, hfree⟩
        · simp only [overlapLoopMem, he, ok_bind, hloc, Heap.get_ok hn, hs, ↓reduceIte, pure_eq_ok]
        · simp only [overlapLoop, he, ok_bind, hloc, Heap.get_ok hn, ↓reduceIte, pure_eq_ok]
      · exact absurd hmeet (hnone x hx)
    · have hlen : t'.inorder.length = t.inorder.length + 1 := by
        rw [ht', ht]
        simp only [List.length_append, List.length_cons]
        omega
      have hfits' : ∀ k ≤ ps.length, 2 * Nat.log 2 (t'.inorder.length + k + 1) + 1 ≤ frames := by
        intro k hk
        have := hfits (k + 1) (by simpa using hk)
        rwa [hlen, show t.inorder.length + 1 + k + 1 = t.inorder.length + (k + 1) + 1 by omega]
      obtain ⟨s, b, hs, hb, hroot, hfree⟩ := ih hw' (hfits' _ le_rfl) hfits'
      refine ⟨s, b, ?_, ?_, hroot, hfree⟩
      · simpa only [overlapLoopMem, he, ok_bind, Bool.false_eq_true, ↓reduceIte] using hs
      · simpa only [overlapLoop, he, ok_bind, Bool.false_eq_true, ↓reduceIte] using hb

/-- The check gives the answer of the comparison of all pairs, and every node it allocated is
freed exactly once: no pointer is followed or freed after it was freed, and nothing is live
when it returns. The recursion nests no deeper than twice the logarithm of the number of
segments. -/
theorem overlap_check_frees (env : Env) (ptrs : List Int) (hsize : 1 ≤ size)
    (hframes : 2 * Nat.log 2 (ptrs.length + 1) + 1 ≤ frames) :
    ∃ s, iovCheckOverlapMem frames env ptrs size = .ok (s, iovCheckOverlapPairs env ptrs size) ∧
      s.root = none ∧ ∀ p, s.heap.cell p = none := by
  unfold iovCheckOverlapMem iovCheckOverlapPairs
  cases hchecks : env.cfg.iovChecks with
  | false => exact ⟨ctreeEmpty, rfl, rfl, fun _ => rfl⟩
  | true =>
    obtain ⟨s, b, hs, hb, hroot, hfree⟩ :=
      overlapLoopMem_ok wellFormed_empty hsize ptrs (by simpa using hframes)
    obtain ⟨b', hb', hiff⟩ := overlapLoop_ok wellFormed_empty hsize ptrs
    cases hb.symm.trans hb'
    have heq : b = overlapPairs size ptrs := by
      rw [Bool.eq_iff_iff, hiff]
      simp
    exact ⟨s, heq ▸ hs, hroot, hfree⟩

end

theorem overlap_check_frees_touching :
    ∃ s, iovCheckOverlapMem 5 checkedEnv [64, 68, 66] 4 = .ok (s, true) ∧
      s.root = none ∧ ∀ p, s.heap.cell p = none :=
  overlap_check_frees checkedEnv [64, 68, 66] (by decide) (by decide)

end ArmciMpi
