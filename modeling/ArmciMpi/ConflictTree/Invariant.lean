import Mathlib.Data.List.Perm.Subperm
import ArmciMpi.ConflictTree.Insert

/-!
# The invariant of the conflict tree

`WellFormed` is what a heap and its root pointer satisfy between two calls of
`ctree_insert`: the live nodes are those of one balanced, ordered tree. One
insertion keeps it and tells a range that meets a stored one from a range that
does not (`ctreeInsert_ok`); `insert_run_wellFormed` is the result over any
sequence of insertions, with the links of the nodes spelled out.
-/

namespace ArmciMpi.ConflictTree

open Lib (Dir BinTree Frame Path)

structure WellFormed (s : CTree) (t : BinTree Cell) : Prop where
  root : s.root = rootPtr t
  rep : Rep s.heap none t
  nodup : (ptrs t).Nodup
  live : ∀ p, s.heap.cell p ≠ none ↔ p ∈ ptrs t
  bound : ∀ p ∈ ptrs t, p < s.heap.next
  avl : t.Avl
  ordered : Ordered t.inorder

-- ------------------------------
-- Links
-- ------------------------------

/-- Child and parent pointers of the live nodes agree, and the root is the one
node without a parent. -/
structure Linked (s : CTree) : Prop where
  child : ∀ p n d q, s.heap.cell p = some n → n.child d = some q →
    ∃ m, s.heap.cell q = some m ∧ m.parent = some p
  parent : ∀ p n q, s.heap.cell p = some n → n.parent = some q →
    ∃ m d, s.heap.cell q = some m ∧ m.child d = some p
  top : ∀ p n, s.heap.cell p = some n → (n.parent = none ↔ s.root = some p)
  root : ∀ p, s.root = some p → s.heap.cell p ≠ none

section
variable {h : Heap} {up : Ptr} {t : BinTree Cell} {p q : Nat} {n : Node}

theorem Rep.cell_of_mem (hr : Rep h up t) (hp : p ∈ ptrs t) : ∃ n, h.cell p = some n := by
  induction t generalizing up with
  | leaf => cases hp
  | node l a ht r ihl ihr =>
    simp only [ptrs, BinTree.inorder_node, List.map_append, List.map_cons, List.mem_append,
      List.mem_cons] at hp
    rcases hp with hp | rfl | hp
    · exact ihl hr.2.1 hp
    · exact ⟨_, hr.1⟩
    · exact ihr hr.2.2 hp

theorem Rep.child_parent (hr : Rep h up t) (hp : p ∈ ptrs t) (hn : h.cell p = some n) {d : Dir}
    (hq : n.child d = some q) : ∃ m, h.cell q = some m ∧ m.parent = some p := by
  induction t generalizing up with
  | leaf => cases hp
  | node l a ht r ihl ihr =>
    obtain ⟨ha, hl, hr⟩ := hr
    simp only [ptrs, BinTree.inorder_node, List.map_append, List.map_cons, List.mem_append,
      List.mem_cons] at hp
    rcases hp with hp | rfl | hp
    · exact ihl hl hp
    · cases ha.symm.trans hn
      cases d with
      | left => exact hl.root_cell hq
      | right => exact hr.root_cell hq
    · exact ihr hr hp

theorem Rep.parent_child (hr : Rep h up t) (hp : p ∈ ptrs t) (hn : h.cell p = some n) :
    (n.parent = up ∧ rootPtr t = some p) ∨
      ∃ q m d, n.parent = some q ∧ h.cell q = some m ∧ m.child d = some p := by
  induction t generalizing up with
  | leaf => cases hp
  | node l a ht r ihl ihr =>
    obtain ⟨ha, hl, hr⟩ := hr
    simp only [ptrs, BinTree.inorder_node, List.map_append, List.map_cons, List.mem_append,
      List.mem_cons] at hp
    rcases hp with hp | rfl | hp
    · obtain ⟨hup, hroot⟩ | hin := ihl hl hp
      · exact .inr ⟨a.ptr, _, .left, hup, ha, hroot⟩
      · exact .inr hin
    · cases ha.symm.trans hn
      exact .inl ⟨rfl, rfl⟩
    · obtain ⟨hup, hroot⟩ | hin := ihr hr hp
      · exact .inr ⟨a.ptr, _, .right, hup, ha, hroot⟩
      · exact .inr hin

end

theorem WellFormed.linked {s : CTree} {t : BinTree Cell} (hw : WellFormed s t) : Linked s := by
  have hlive : ∀ {p n}, s.heap.cell p = some n → p ∈ ptrs t := fun hn =>
    (hw.live _).mp (by simp [hn])
  refine ⟨fun p n d q hn hq => hw.rep.child_parent (hlive hn) hn hq, fun p n q hn hq => ?_,
    fun p n hn => ?_, fun p hp => (hw.live p).mpr (rootPtr_mem (hw.root ▸ hp))⟩
  · obtain ⟨hup, -⟩ | ⟨q', m, d, hq', hm, hd⟩ := hw.rep.parent_child (hlive hn) hn
    · cases hup.symm.trans hq
    · cases hq'.symm.trans hq
      exact ⟨m, d, hm, hd⟩
  · constructor
    · intro hnone
      obtain ⟨-, hroot⟩ | ⟨q, -, -, hq, -⟩ := hw.rep.parent_child (hlive hn) hn
      · exact hw.root.trans hroot
      · cases hnone.symm.trans hq
    · intro hp
      obtain ⟨m, hm, hup⟩ := hw.rep.root_cell (hw.root ▸ hp)
      cases hm.symm.trans hn
      exact hup

-- ------------------------------
-- One insertion
-- ------------------------------

theorem wellFormed_empty : WellFormed ctreeEmpty .leaf := by
  constructor <;> simp [ctreeEmpty, rootPtr, Rep, ptrs, BinTree.Avl, Ordered]

section
variable {s : CTree} {t t' : BinTree Cell} {lo hi : Int} {h' : Heap}

theorem Heap.alloc_ne {h : Heap} {p : Nat} (hp : p ≠ h.next) (lo hi : Int) :
    (h.alloc lo hi).cell p = h.cell p := Heap.set_ne hp _ _

theorem WellFormed.room (hw : WellFormed s t) : (ptrs t).length ≤ s.heap.next := by
  have hsub := List.subperm_of_subset hw.nodup fun p hp => List.mem_range.mpr (hw.bound p hp)
  simpa using hsub.length_le

theorem WellFormed.next_fresh (hw : WellFormed s t) : s.heap.next ∉ ptrs t := fun hmem =>
  Nat.lt_irrefl _ (hw.bound _ hmem)

theorem WellFormed.inserting (hw : WellFormed s t) (hle : lo ≤ hi) :
    Inserting (s.heap.alloc lo hi) ⟨s.heap.next, lo, hi⟩ t where
  rep := hw.rep.congr fun p hp => Heap.alloc_ne (fun he : p = _ => hw.next_fresh (he ▸ hp)) _ _
  nodup := List.nodup_cons.mpr ⟨hw.next_fresh, hw.nodup⟩
  avl := hw.avl
  ordered := hw.ordered
  cell := if_pos rfl
  le := hle
  room := Nat.le_succ_of_le hw.room

theorem Ordered.insert {c : Cell} {pre post : List Cell} (ho : Ordered (pre ++ post))
    (hb : Between c.lo c.hi pre post) (hle : c.lo ≤ c.hi) : Ordered (pre ++ c :: post) := by
  obtain ⟨hne, hpw⟩ := ho
  obtain ⟨hpre, hpost, hcross⟩ := List.pairwise_append.mp hpw
  refine ⟨fun x hx => ?_, List.pairwise_append.mpr
    ⟨hpre, List.pairwise_cons.mpr ⟨hb.2, hpost⟩, fun x hx y hy => ?_⟩⟩
  · rcases List.mem_append.mp hx with hx | hx
    · exact hne x (List.mem_append_left _ hx)
    · rcases List.mem_cons.mp hx with rfl | hx
      · exact hle
      · exact hne x (List.mem_append_right _ hx)
  · rcases List.mem_cons.mp hy with rfl | hy
    · exact hb.1 x hx
    · exact hcross x hx y hy

theorem Between.not_meets {pre post : List Cell} (hb : Between lo hi pre post) {x : Cell}
    (hx : x ∈ pre ++ post) : ¬ x.Meets lo hi := by
  rintro ⟨h₁, h₂⟩
  rcases List.mem_append.mp hx with hx | hx
  · exact absurd (hb.1 x hx) (by omega)
  · exact absurd (hb.2 x hx) (by omega)

theorem WellFormed.free_alloc (hw : WellFormed s t) (lo hi : Int) :
    ((s.heap.alloc lo hi).free s.heap.next).cell = s.heap.cell := by
  funext p
  by_cases hp : p = s.heap.next
  · have hnone : s.heap.cell p = none := not_not.mp fun hlive =>
      hw.next_fresh (hp ▸ (hw.live p).mp hlive)
    simp [Heap.free, hp ▸ hnone, hp]
  · simp [Heap.free, Heap.alloc, hp]

theorem WellFormed.freed (hw : WellFormed s t) :
    WellFormed ⟨(s.heap.alloc lo hi).free s.heap.next, s.root⟩ t where
  root := hw.root
  rep := hw.rep.congr fun p _ => congrFun (hw.free_alloc lo hi) p
  nodup := hw.nodup
  live := fun p => by
    show ((s.heap.alloc lo hi).free s.heap.next).cell p ≠ none ↔ _
    rw [hw.free_alloc]
    exact hw.live p
  bound := fun p hp => Nat.lt_succ_of_lt (hw.bound p hp)
  avl := hw.avl
  ordered := hw.ordered

theorem WellFormed.inserted (hw : WellFormed s t) (hle : lo ≤ hi)
    (hins : Inserted (s.heap.alloc lo hi) ⟨s.heap.next, lo, hi⟩ t h' t') :
    WellFormed ⟨h', rootPtr t'⟩ t' := by
  obtain ⟨pre, post, ht, ht', hb⟩ := hins.place
  have hperm : (ptrs t').Perm (s.heap.next :: ptrs t) := by
    simp only [ptrs, ht, ht', List.map_append, List.map_cons]
    exact List.perm_middle
  refine ⟨rfl, hins.rep, ?_, fun p => ?_, fun p hp => ?_, hins.avl, ?_⟩
  · exact hperm.nodup_iff.mpr (List.nodup_cons.mpr ⟨hw.next_fresh, hw.nodup⟩)
  · refine ⟨fun hlive => ?_, fun hp => ?_⟩
    · by_contra hp
      have hp' : p ∉ s.heap.next :: ptrs t := fun hmem => hp (hperm.mem_iff.mpr hmem)
      obtain ⟨hne, hout⟩ := not_or.mp (mt List.mem_cons.mpr hp')
      rw [hins.same.2 p hp', Heap.alloc_ne hne] at hlive
      exact hout ((hw.live p).mp hlive)
    · obtain ⟨n, hn⟩ := hins.rep.cell_of_mem hp
      simp [hn]
  · rw [hins.same.1]
    rcases List.mem_cons.mp (hperm.mem_iff.mp hp) with rfl | hp
    · exact Nat.lt_succ_self _
    · exact Nat.lt_succ_of_lt (hw.bound p hp)
  · rw [ht']
    exact (ht ▸ hw.ordered).insert hb hle

theorem ctreeInsert_first (hroot : s.root = none) :
    ctreeInsert s lo hi = .ok (⟨s.heap.alloc lo hi, some s.heap.next⟩, false) := by
  simp only [ctreeInsert, hroot]

theorem ctreeInsert_conflict {cur : Nat} (hroot : s.root = some cur)
    (he : insertAt (s.heap.alloc lo hi).next (s.heap.alloc lo hi) s.heap.next lo hi cur =
      .ok (h', none)) : ctreeInsert s lo hi = .ok (⟨h', s.root⟩, true) := by
  simp only [ctreeInsert, hroot, he, ok_bind]
  rfl

theorem ctreeInsert_linked {cur : Nat} {root : Ptr} (hroot : s.root = some cur)
    (he : insertAt (s.heap.alloc lo hi).next (s.heap.alloc lo hi) s.heap.next lo hi cur =
      .ok (h', some root)) : ctreeInsert s lo hi = .ok (⟨h', root⟩, false) := by
  simp only [ctreeInsert, hroot, he, ok_bind]
  rfl

theorem inserted_first (hw : WellFormed s .leaf) (hle : lo ≤ hi) :
    Inserted (s.heap.alloc lo hi) ⟨s.heap.next, lo, hi⟩ .leaf (s.heap.alloc lo hi)
      (.single ⟨s.heap.next, lo, hi⟩) where
  rep := ⟨(hw.inserting hle).cell, trivial, trivial⟩
  avl := BinTree.avl_single _
  place := ⟨[], [], rfl, rfl, by simp [Between]⟩
  same := .refl _ _

/-- A call returns, and finds a conflict exactly if a stored range meets its own. -/
theorem ctreeInsert_ok (hw : WellFormed s t) (hle : lo ≤ hi) :
    (∃ x ∈ t.inorder, x.Meets lo hi) ∧
        (∃ s', ctreeInsert s lo hi = .ok (s', true) ∧ WellFormed s' t ∧ s'.root = s.root ∧
          s'.heap.cell = s.heap.cell) ∨
      (∀ x ∈ t.inorder, ¬ x.Meets lo hi) ∧
        ∃ s' t' pre post c, ctreeInsert s lo hi = .ok (s', false) ∧ WellFormed s' t' ∧
          c.lo = lo ∧ c.hi = hi ∧ t.inorder = pre ++ post ∧ t'.inorder = pre ++ c :: post := by
  -- The node is linked in the two cases that find no conflict.
  have hlinked : ∀ h' t', ctreeInsert s lo hi = .ok (⟨h', rootPtr t'⟩, false) →
      Inserted (s.heap.alloc lo hi) ⟨s.heap.next, lo, hi⟩ t h' t' →
      (∀ x ∈ t.inorder, ¬ x.Meets lo hi) ∧
        ∃ s' t' pre post c, ctreeInsert s lo hi = .ok (s', false) ∧ WellFormed s' t' ∧
          c.lo = lo ∧ c.hi = hi ∧ t.inorder = pre ++ post ∧ t'.inorder = pre ++ c :: post := by
    intro h' t' he hins
    obtain ⟨pre, post, ht, ht', hb⟩ := hins.place
    exact ⟨fun x hx => hb.not_meets (ht ▸ hx), _, t', pre, post, _, he, hw.inserted hle hins,
      rfl, rfl, ht, ht'⟩
  cases hroot : s.root with
  | none =>
    cases t with
    | node l a ht r => cases hroot.symm.trans hw.root
    | leaf => exact .inr (hlinked _ _ (ctreeInsert_first hroot) (inserted_first hw hle))
  | some cur =>
    obtain ⟨hmeet, he⟩ | ⟨h', t', he, hins⟩ := insertAt_ok (hw.inserting hle) (Path.plug_nil t).symm
      (hw.root ▸ hroot) (by simp [Between, Path.before, Path.after]) (Nat.le_succ_of_le hw.room)
    · exact .inl ⟨hmeet, _, ctreeInsert_conflict hroot he, hw.freed, hroot, hw.free_alloc lo hi⟩
    · exact .inr (hlinked h' t' (ctreeInsert_linked hroot he) hins)

end

-- ------------------------------
-- Runs
-- ------------------------------

/-- An argument of `ctree_insert`. -/
structure Range where
  lo : Int
  hi : Int
  le : lo ≤ hi

/-- Insert one range after the other; with the tree, the ranges that found no
conflict. -/
def insertAll (s : CTree) : List Range → Except String (CTree × List Range)
  | [] => .ok (s, [])
  | r :: rs => do
    let (s, conflict) ← ctreeInsert s r.lo r.hi
    let (s, accepted) ← insertAll s rs
    return (s, if conflict then accepted else r :: accepted)

def Cell.bounds (c : Cell) : Int × Int := (c.lo, c.hi)

def Range.bounds (r : Range) : Int × Int := (r.lo, r.hi)

theorem insertAll_ok {s : CTree} {t : BinTree Cell} (hw : WellFormed s t) (rs : List Range) :
    ∃ s' t' accepted, insertAll s rs = .ok (s', accepted) ∧ WellFormed s' t' ∧
      (t'.inorder.map Cell.bounds).Perm (accepted.map Range.bounds ++ t.inorder.map Cell.bounds) := by
  induction rs generalizing s t with
  | nil => exact ⟨s, t, [], rfl, hw, .refl _⟩
  | cons r rs ih =>
    obtain ⟨-, s₁, he, hw₁, -⟩ | ⟨-, s₁, t₁, pre, post, c, he, hw₁, hlo, hhi, ht, ht₁⟩ :=
      ctreeInsert_ok hw r.le
    · obtain ⟨s', t', accepted, he', hw', hperm⟩ := ih hw₁
      exact ⟨s', t', accepted, by simp only [insertAll, he, ok_bind, he']; rfl, hw', hperm⟩
    · obtain ⟨s', t', accepted, he', hw', hperm⟩ := ih hw₁
      refine ⟨s', t', r :: accepted, by simp only [insertAll, he, ok_bind, he']; rfl, hw',
        hperm.trans ?_⟩
      have hc : c.bounds = r.bounds := by simp only [Cell.bounds, Range.bounds, hlo, hhi]
      simp only [ht, ht₁, List.map_append, List.map_cons, hc]
      rw [← List.append_assoc]
      exact List.perm_middle.trans (by simp)

/-- Every sequence of insertions into the empty tree returns, and leaves a linked,
balanced, ordered tree of the ranges that were accepted. -/
theorem insert_run_wellFormed (rs : List Range) :
    ∃ s t accepted, insertAll ctreeEmpty rs = .ok (s, accepted) ∧ WellFormed s t ∧ Linked s ∧
      (t.inorder.map Cell.bounds).Perm (accepted.map Range.bounds) := by
  obtain ⟨s, t, accepted, he, hw, hperm⟩ := insertAll_ok wellFormed_empty rs
  exact ⟨s, t, accepted, he, hw, hw.linked, by simpa using hperm⟩

end ArmciMpi.ConflictTree
