import ArmciMpi.ConflictTree.Search

/-!
# Destroying the conflict tree

`ctree_destroy` frees the nodes of the tree after those below them. `free` of a
pointer that is not live aborts, so a run that returns has freed no node twice
and read none after it was freed. The recursion carries the number of frames it
may nest; a balanced tree needs one for each level (`WellFormed.destroy`).
-/

namespace ArmciMpi.ConflictTree

open Lib (BinTree)

/-- `free(p)`. -/
def Heap.release (h : Heap) (p : Nat) : Except String Heap :=
  match h.cell p with
  | some _ => .ok (h.free p)
  | none => .error "double free"

/-- `ctree_destroy_rec` with at most `frames` calls nested below non-null pointers. -/
def ctreeDestroyRec (frames : Nat) (h : Heap) (root : Ptr) : Except String Heap :=
  match root with
  | none => .ok h
  | some p =>
    match frames with
    | 0 => .error "out of fuel"
    | frames + 1 => do
      let h ← ctreeDestroyRec frames h (← h.get (some p)).left
      let h ← ctreeDestroyRec frames h (← h.get (some p)).right
      h.release p

def ctreeDestroy (frames : Nat) (t : CTree) : Except String CTree := do
  let h ← ctreeDestroyRec frames t.heap t.root
  return ⟨h, none⟩

section
variable {h h' : Heap} {up : Ptr} {l r t : BinTree Cell} {a : Cell} {p frames : Nat}

@[simp] theorem Heap.free_cell (h : Heap) (p q : Nat) :
    (h.free p).cell q = if q = p then none else h.cell q := rfl

theorem Heap.release_ok {n : Node} (hp : h.cell p = some n) : h.release p = .ok (h.free p) := by
  simp [Heap.release, hp]

theorem mem_ptrs_node {ht : Int} :
    p ∈ ptrs (.node l a ht r) ↔ p ∈ ptrs l ∨ p = a.ptr ∨ p ∈ ptrs r := by
  simp [ptrs]

theorem nodup_ptrs_node {ht : Int} : (ptrs (.node l a ht r)).Nodup ↔
    (ptrs l).Nodup ∧ (ptrs r).Nodup ∧ a.ptr ∉ ptrs l ∧ a.ptr ∉ ptrs r ∧
      ∀ p ∈ ptrs l, p ∉ ptrs r := by
  have hperm : (ptrs (.node l a ht r)).Perm (a.ptr :: (ptrs l ++ ptrs r)) :=
    ptrs_build_perm .right l a ht r
  rw [hperm.nodup_iff, List.nodup_cons, List.mem_append, not_or, List.nodup_append']
  simp only [List.disjoint_left]
  tauto

structure Heap.Freed (h : Heap) (ps : List Nat) (h' : Heap) : Prop where
  next : h'.next = h.next
  gone : ∀ p ∈ ps, h'.cell p = none
  kept : ∀ p ∉ ps, h'.cell p = h.cell p

theorem Rep.destroy (hrep : Rep h up t) (hnodup : (ptrs t).Nodup) (hdepth : t.depth ≤ frames) :
    ∃ h', ctreeDestroyRec frames h (rootPtr t) = .ok h' ∧ h.Freed (ptrs t) h' := by
  induction t generalizing h up frames with
  | leaf => exact ⟨h, by simp [rootPtr, ctreeDestroyRec], rfl, by simp, fun _ _ => rfl⟩
  | node l a ht r ihl ihr =>
    obtain ⟨ha, hl, hr⟩ := hrep
    obtain ⟨hndl, hndr, hal, har, hlr⟩ := nodup_ptrs_node.mp hnodup
    obtain ⟨frames, rfl, hdl, hdr⟩ :
        ∃ k : Nat, frames = k + 1 ∧ l.depth ≤ k ∧ r.depth ≤ k := by
      have := l.depth_nonneg
      rw [BinTree.depth] at hdepth
      exact ⟨frames - 1, by omega, by omega, by omega⟩
    obtain ⟨h₁, he₁, hf₁⟩ := ihl hl hndl hdl
    -- the left subtree shares no node with the right one
    have hr₁ : Rep h₁ (some a.ptr) r := hr.congr fun p hp =>
      hf₁.kept p fun hpl => hlr p hpl hp
    obtain ⟨h₂, he₂, hf₂⟩ := ihr hr₁ hndr hdr
    have ha₁ := (hf₁.kept a.ptr hal).trans ha
    have ha₂ := (hf₂.kept a.ptr har).trans ha₁
    refine ⟨h₂.free a.ptr, ?_, hf₂.next.trans hf₁.next, fun p hp => ?_, fun p hp => ?_⟩
    · show ctreeDestroyRec (frames + 1) h (some a.ptr) = _
      simp only [ctreeDestroyRec, Heap.get_ok ha, ok_bind, he₁, Heap.get_ok ha₁, he₂,
        Heap.release_ok ha₂]
    · by_cases hpr : p ∈ ptrs r
      · simp [hf₂.gone p hpr]
      · rcases mem_ptrs_node.mp hp with hpl | rfl | hpr'
        · simp [hf₂.kept p hpr, hf₁.gone p hpl]
        · simp
        · exact absurd hpr' hpr
    · simp only [mem_ptrs_node, not_or] at hp
      rw [Heap.free_cell, if_neg hp.2.1, hf₂.kept p hp.2.2, hf₁.kept p hp.1]

/-- Destroying a well-formed tree frees all that was allocated for it, in as many nested
calls as the logarithm of its size allows. -/
theorem WellFormed.destroy {s : CTree} (hw : WellFormed s t)
    (hframes : 2 * Nat.log 2 (t.inorder.length + 1) + 1 ≤ frames) :
    ∃ s', ctreeDestroy frames s = .ok s' ∧ s'.root = none ∧ ∀ p, s'.heap.cell p = none := by
  have hdepth := hw.avl.depth_le
  have hnonneg := t.depth_nonneg
  have hle : t.depth ≤ frames := by omega
  obtain ⟨h', he, hfreed⟩ := hw.rep.destroy hw.nodup hle
  refine ⟨⟨h', none⟩, ?_, rfl, fun p => ?_⟩
  · simp only [ctreeDestroy, hw.root, he, ok_bind, pure_eq_ok]
  · by_cases hp : p ∈ ptrs t
    · exact hfreed.gone p hp
    · exact (hfreed.kept p hp).trans (not_not.mp fun hlive => hp ((hw.live p).mp hlive))

end

end ArmciMpi.ConflictTree
