import ArmciMpi.ConflictTree.Heap

/-!
# Trees in the heap

`Rep` says that the nodes of a tree are in the heap, with the right parent,
children, range and stored height at each; `RepPath` says the same of the path
from a subtree to the root. The pointers of a tree are distinct, so a change
to one node leaves the representation of every subtree without it.
`rotate_rep` is the effect of a rotation: the tree below the rotated nodes and
the path above keep their representation, with the links between them
changed.
-/

namespace ArmciMpi.ConflictTree

open Lib (Dir BinTree Frame Path)
open Lib.BinTree (build mk)

structure Cell where
  ptr : Nat
  lo : Int
  hi : Int

def rootPtr : BinTree Cell → Ptr
  | .leaf => none
  | .node _ a _ _ => some a.ptr

def ptrs (t : BinTree Cell) : List Nat := t.inorder.map Cell.ptr

/-- The tree is in the heap below `parent`. -/
def Rep (h : Heap) (parent : Ptr) : BinTree Cell → Prop
  | .leaf => True
  | .node l a ht r =>
    h.cell a.ptr = some ⟨a.lo, a.hi, ht, parent, rootPtr l, rootPtr r⟩ ∧
      Rep h (some a.ptr) l ∧ Rep h (some a.ptr) r

def pathPtr : Path Cell → Ptr
  | [] => none
  | f :: _ => some f.a.ptr

/-- A node with the child `c` on side `d` and `o` on the other. -/
def nodeOn (d : Dir) (a : Cell) (ht : Int) (parent o c : Ptr) : Node :=
  ⟨a.lo, a.hi, ht, parent, d.pick c o, d.pick o c⟩

/-- The path is in the heap above the subtree at `child`. -/
def RepPath (h : Heap) (child : Ptr) : Path Cell → Prop
  | [] => True
  | f :: fs =>
    h.cell f.a.ptr = some (nodeOn f.side f.a f.ht (pathPtr fs) (rootPtr f.sibling) child) ∧
      Rep h (some f.a.ptr) f.sibling ∧ RepPath h (some f.a.ptr) fs

def pathPtrs : Path Cell → List Nat
  | [] => []
  | f :: fs => f.a.ptr :: ptrs f.sibling ++ pathPtrs fs

-- ------------------------------
-- The heap
-- ------------------------------

section
variable {h h' : Heap} {p q : Nat} {n : Node}

@[simp] theorem Heap.set_cell (h : Heap) (p : Nat) (n : Node) (q : Nat) :
    (h.set p n).cell q = if q = p then some n else h.cell q := rfl

@[simp] theorem Heap.set_next (h : Heap) (p : Nat) (n : Node) : (h.set p n).next = h.next := rfl

theorem Heap.get_ok (hp : h.cell p = some n) : h.get (some p) = .ok n := by
  simp [Heap.get, hp]

theorem Heap.modify_ok (hp : h.cell p = some n) (f : Node → Node) :
    h.modify (some p) f = .ok (h.set p (f n)) := by
  simp [Heap.modify, hp]

/-- Nothing but the nodes in `ps` differs. -/
def Heap.SameOff (ps : List Nat) (h h' : Heap) : Prop :=
  h'.next = h.next ∧ ∀ q, q ∉ ps → h'.cell q = h.cell q

theorem Heap.SameOff.refl (ps : List Nat) (h : Heap) : h.SameOff ps h := ⟨rfl, fun _ _ => rfl⟩

theorem Heap.SameOff.set (hp : p ∈ ps) (h : Heap) (n : Node) : h.SameOff ps (h.set p n) := by
  refine ⟨rfl, fun q hq => ?_⟩
  rw [Heap.set_cell, if_neg]
  rintro rfl
  exact hq hp

theorem Heap.SameOff.trans {h'' : Heap} (h₁ : h.SameOff ps h') (h₂ : h'.SameOff ps h'') :
    h.SameOff ps h'' :=
  ⟨h₂.1.trans h₁.1, fun q hq => (h₂.2 q hq).trans (h₁.2 q hq)⟩

theorem Heap.SameOff.mono {qs : List Nat} (h₁ : h.SameOff ps h') (hsub : ps ⊆ qs) :
    h.SameOff qs h' :=
  ⟨h₁.1, fun q hq => h₁.2 q fun hmem => hq (hsub hmem)⟩

end

-- ------------------------------
-- Representation
-- ------------------------------

@[simp] theorem ptrs_leaf : ptrs .leaf = [] := rfl

theorem rootPtr_build (d : Dir) (o : BinTree Cell) (a : Cell) (ht : Int) (c : BinTree Cell) :
    rootPtr (build d o a ht c) = some a.ptr := rfl

theorem rootPtr_mem {t : BinTree Cell} {p : Nat} (hp : rootPtr t = some p) : p ∈ ptrs t := by
  cases t with
  | leaf => cases hp
  | node l a ht r =>
    cases hp
    simp [ptrs]

theorem mem_ptrs_build {d : Dir} {o c : BinTree Cell} {a : Cell} {ht : Int} {p : Nat} :
    p ∈ ptrs (build d o a ht c) ↔ p = a.ptr ∨ p ∈ ptrs o ∨ p ∈ ptrs c := by
  cases d <;> simp only [ptrs, build, Dir.pick, BinTree.inorder, List.map_append, List.map_cons,
    List.mem_append, List.mem_cons] <;> tauto

theorem ptrs_build_perm (d : Dir) (o : BinTree Cell) (a : Cell) (ht : Int) (c : BinTree Cell) :
    (ptrs (build d o a ht c)).Perm (a.ptr :: (ptrs o ++ ptrs c)) := by
  cases d with
  | left =>
    simp only [ptrs, build, Dir.pick, BinTree.inorder, List.map_append, List.map_cons]
    exact List.perm_middle.trans (List.perm_append_comm.cons _)
  | right =>
    simp only [ptrs, build, Dir.pick, BinTree.inorder, List.map_append, List.map_cons]
    exact List.perm_middle

theorem Rep.congr {h h' : Heap} {parent : Ptr} {t : BinTree Cell}
    (heq : ∀ p ∈ ptrs t, h'.cell p = h.cell p) (hr : Rep h parent t) : Rep h' parent t := by
  induction t generalizing parent with
  | leaf => trivial
  | node l a ht r ihl ihr =>
    simp only [ptrs, BinTree.inorder, List.map_append, List.map_cons, List.mem_append,
      List.mem_cons] at heq
    obtain ⟨ha, hl, hr⟩ := hr
    exact ⟨(heq a.ptr (by simp)).trans ha, ihl (fun p hp => heq p (.inl hp)) hl,
      ihr (fun p hp => heq p (.inr (.inr hp))) hr⟩

theorem RepPath.congr {h h' : Heap} {child : Ptr} {fs : Path Cell}
    (heq : ∀ p ∈ pathPtrs fs, h'.cell p = h.cell p) (hr : RepPath h child fs) :
    RepPath h' child fs := by
  induction fs generalizing child with
  | nil => trivial
  | cons f fs ih =>
    simp only [pathPtrs, List.mem_append, List.mem_cons] at heq
    obtain ⟨hf, hs, hfs⟩ := hr
    exact ⟨(heq f.a.ptr (by simp)).trans hf, hs.congr fun p hp => heq p (.inl (.inr hp)),
      ih (fun p hp => heq p (.inr hp)) hfs⟩

section
variable {h h' : Heap} {parent child : Ptr} {t : BinTree Cell} {fs : Path Cell} {p : Nat}

theorem Rep.sameOff (hr : Rep h parent t) (hs : h.SameOff ps h') (hd : ∀ p ∈ ptrs t, p ∉ ps) :
    Rep h' parent t := hr.congr fun p hp => hs.2 p (hd p hp)

theorem RepPath.sameOff (hr : RepPath h child fs) (hs : h.SameOff ps h')
    (hd : ∀ p ∈ pathPtrs fs, p ∉ ps) : RepPath h' child fs := hr.congr fun p hp => hs.2 p (hd p hp)

theorem Heap.set_self (h : Heap) (p : Nat) (n : Node) : (h.set p n).cell p = some n := if_pos rfl

theorem Heap.set_ne (hqp : q ≠ p) (h : Heap) (n : Node) : (h.set p n).cell q = h.cell q :=
  if_neg hqp

theorem Rep.set (hr : Rep h parent t) (hp : p ∉ ptrs t) (n : Node) : Rep (h.set p n) parent t :=
  hr.congr fun _ hq => Heap.set_ne (fun he => absurd (he ▸ hq) hp) h n

theorem RepPath.set (hr : RepPath h child fs) (hp : p ∉ pathPtrs fs) (n : Node) :
    RepPath (h.set p n) child fs :=
  hr.congr fun _ hq => Heap.set_ne (fun he => absurd (he ▸ hq) hp) h n

theorem pathPtr_mem (hp : p ∈ (pathPtr fs).toList) : p ∈ pathPtrs fs := by
  cases fs with
  | nil => cases hp
  | cons f fs =>
    rw [List.mem_singleton.mp hp]
    exact List.mem_append_left _ List.mem_cons_self

end

theorem rep_build {h : Heap} {parent : Ptr} {d : Dir} {o c : BinTree Cell} {a : Cell} {ht : Int} :
    Rep h parent (build d o a ht c) ↔
      h.cell a.ptr = some (nodeOn d a ht parent (rootPtr o) (rootPtr c)) ∧
        Rep h (some a.ptr) o ∧ Rep h (some a.ptr) c := by
  cases d with
  | left =>
    simp only [build, Dir.pick, Rep, nodeOn]
    tauto
  | right => rfl

theorem rep_plug {h : Heap} {fs : Path Cell} {t : BinTree Cell} :
    Rep h none (fs.plug t) ↔ RepPath h (rootPtr t) fs ∧ Rep h (pathPtr fs) t := by
  induction fs generalizing t with
  | nil => simp [Path.plug, RepPath, pathPtr]
  | cons f fs ih =>
    rw [Path.plug, ih, Frame.fill, rep_build, RepPath, pathPtr, rootPtr_build]
    tauto

theorem ptrs_plug_perm (fs : Path Cell) (t : BinTree Cell) :
    (ptrs (fs.plug t)).Perm (ptrs t ++ pathPtrs fs) := by
  induction fs generalizing t with
  | nil => simp [Path.plug, pathPtrs]
  | cons f fs ih =>
    rw [Path.plug, pathPtrs]
    refine (ih _).trans ?_
    refine ((ptrs_build_perm ..).append_right _).trans ?_
    simp only [List.cons_append, List.append_assoc]
    refine List.Perm.trans ?_ List.perm_middle.symm
    refine List.Perm.cons _ ?_
    simp only [← List.append_assoc]
    exact List.perm_append_comm.append_right _

-- ------------------------------
-- Steps of a rotation
-- ------------------------------

section
variable {d : Dir} {a : Cell} {ht k : Int} {parent o c x : Ptr}

@[simp] theorem nodeOn_child : (nodeOn d a ht parent o c).child d = c := by
  cases d <;> rfl

@[simp] theorem nodeOn_child_flip : (nodeOn d a ht parent o c).child d.flip = o := by
  cases d <;> rfl

@[simp] theorem nodeOn_parent : (nodeOn d a ht parent o c).parent = parent := rfl

@[simp] theorem nodeOn_left : (nodeOn d a ht parent o c).left = d.pick c o := rfl

@[simp] theorem nodeOn_right : (nodeOn d a ht parent o c).right = d.pick o c := rfl

@[simp] theorem nodeOn_height : (nodeOn d a ht parent o c).height = ht := rfl

@[simp] theorem nodeOn_setChild :
    (nodeOn d a ht parent o c).setChild d x = nodeOn d a ht parent o x := by
  cases d <;> rfl

@[simp] theorem nodeOn_setChild_flip :
    (nodeOn d a ht parent o c).setChild d.flip x = nodeOn d a ht parent x c := by
  cases d <;> rfl

@[simp] theorem nodeOn_withParent :
    (nodeOn d a ht parent o c).withParent x = nodeOn d a ht x o c := rfl

@[simp] theorem nodeOn_withHeight :
    (nodeOn d a ht parent o c).withHeight k = nodeOn d a k parent o c := rfl

end

@[simp] theorem ok_bind (x : α) (f : α → Except String β) : (Except.ok x >>= f) = f x := rfl

@[simp] theorem pure_eq_ok (x : α) : (pure x : Except String α) = .ok x := rfl

section
variable {h : Heap} {fs : Path Cell} {m : BinTree Cell} {p q : Nat} {parent : Ptr}

theorem nodeHeight_ok (hr : Rep h parent m) : nodeHeight h (rootPtr m) = .ok m.height := by
  cases m with
  | leaf => rfl
  | node l a ht r => simp [nodeHeight, rootPtr, Heap.get_ok hr.1, Lib.BinTree.height]

theorem replaceChild_ok (hr : RepPath h (some p) fs) (hnd : (pathPtrs fs).Nodup)
    (hp : p ∉ pathPtrs fs) :
    ∃ h', replaceChild h (pathPtr fs) (some p) (some q) = .ok h' ∧
      RepPath h' (some q) fs ∧ h.SameOff (pathPtr fs).toList h' := by
  cases fs with
  | nil => exact ⟨h, rfl, trivial, .refl _ h⟩
  | cons f fs =>
    obtain ⟨hf, hs, hfs⟩ := hr
    simp only [pathPtrs, List.cons_append, List.nodup_cons, List.mem_append, not_or] at hnd
    simp only [pathPtrs, List.cons_append, List.mem_cons, List.mem_append, not_or] at hp
    refine ⟨h.set f.a.ptr (nodeOn f.side f.a f.ht (pathPtr fs) (rootPtr f.sibling) (some q)),
      ?_, ⟨by simp [pathPtr], ?_, ?_⟩, .set (by simp [pathPtr]) _ _⟩
    · simp only [replaceChild, pathPtr, Heap.get_ok hf, ok_bind, Heap.modify_ok hf, nodeOn_left]
      -- the subtree is a right child: the left child is the sibling, another node
      have hne : rootPtr f.sibling ≠ some p := fun he => hp.2.1 (rootPtr_mem he)
      obtain ⟨side, a, ht, s⟩ := f
      cases side with
      | left => exact if_pos rfl
      | right => exact if_neg hne
    · exact hs.set hnd.1.1 _
    · exact hfs.set hnd.1.2 _

theorem setParent_ok (hr : Rep h parent m) (hnd : (ptrs m).Nodup) (parent' : Ptr) :
    ∃ h', setParent h (rootPtr m) parent' = .ok h' ∧ Rep h' parent' m ∧
      h.SameOff (rootPtr m).toList h' := by
  cases m with
  | leaf => exact ⟨h, rfl, trivial, .refl _ h⟩
  | node l a ht r =>
    obtain ⟨ha, hl, hr⟩ := hr
    refine ⟨_, Heap.modify_ok ha _, ⟨by simp [Node.withParent], ?_, ?_⟩, .set (by simp [rootPtr]) _ _⟩
    all_goals
      simp only [ptrs, BinTree.inorder, List.map_append, List.map_cons, List.nodup_append,
        List.nodup_cons, List.mem_cons] at hnd
    · exact hl.set (fun hmem => hnd.2.2 a.ptr hmem a.ptr (.inl rfl) rfl) _
    · exact hr.set hnd.2.1.1 _

theorem updateHeight_ok {d : Dir} {a : Cell} {ht : Int} {o c : Ptr} {x y : Int}
    (hp : h.cell p = some (nodeOn d a ht parent o c)) (ho : nodeHeight h o = .ok x)
    (hc : nodeHeight h c = .ok y) :
    updateHeight h (some p) = .ok (h.set p (nodeOn d a (max x y + 1) parent o c)) := by
  cases d with
  | left =>
    simp [updateHeight, Heap.get_ok hp, Heap.modify_ok hp, Dir.pick, ho, hc, max_comm y x]
  | right => simp [updateHeight, Heap.get_ok hp, Heap.modify_ok hp, Dir.pick, ho, hc]

end

section
variable {h : Heap} {fs : Path Cell} {d : Dir} {l m r : BinTree Cell} {a b : Cell} {ht hb : Int}
  {up x : Ptr}

/-- The pointers of the two rotated nodes, the three subtrees and the path are
all different. -/
structure Apart (a b : Cell) (l m r : BinTree Cell) (fs : Path Cell) : Prop where
  ab : a.ptr ≠ b.ptr
  a_l : a.ptr ∉ ptrs l
  a_m : a.ptr ∉ ptrs m
  a_r : a.ptr ∉ ptrs r
  a_fs : a.ptr ∉ pathPtrs fs
  b_l : b.ptr ∉ ptrs l
  b_m : b.ptr ∉ ptrs m
  b_r : b.ptr ∉ ptrs r
  b_fs : b.ptr ∉ pathPtrs fs
  l_m : ∀ p ∈ ptrs l, p ∉ ptrs m
  l_fs : ∀ p ∈ ptrs l, p ∉ pathPtrs fs
  m_r : ∀ p ∈ ptrs m, p ∉ ptrs r
  m_fs : ∀ p ∈ ptrs m, p ∉ pathPtrs fs
  r_fs : ∀ p ∈ ptrs r, p ∉ pathPtrs fs
  nodup_m : (ptrs m).Nodup
  nodup_fs : (pathPtrs fs).Nodup

theorem apart_of_nodup (hnd : (ptrs (build d l a ht (build d m b hb r)) ++ pathPtrs fs).Nodup) :
    Apart a b l m r fs := by
  have hflat := (((ptrs_build_perm d l a ht _).trans
    (((ptrs_build_perm d m b hb r).append_left _).cons _)).append_right (pathPtrs fs)).nodup_iff.mp
    hnd
  simp only [List.cons_append, List.append_assoc, List.nodup_cons, List.nodup_append,
    List.mem_append, List.mem_cons, not_or] at hflat
  constructor <;> grind

theorem lowerRoot_ok (hap : Apart a b l m r fs)
    (hA : h.cell a.ptr = some (nodeOn d a ht up (rootPtr l) (rootPtr m)))
    (hB : h.cell b.ptr = some (nodeOn d b hb up x (rootPtr r)))
    (hl : Rep h (some a.ptr) l) (hm : Rep h (some a.ptr) m) (hr : Rep h (some b.ptr) r) :
    ∃ h', lowerRoot d h (some b.ptr) (some a.ptr) = .ok h' ∧
      Rep h' up (mk d (mk d l a m) b r) ∧ h.SameOff [a.ptr, b.ptr] h' := by
  have hBA := hap.ab.symm
  let nodeB (k : Int) := nodeOn d b k up (some a.ptr) (rootPtr r)
  let nodeA (k : Int) := nodeOn d a k (some b.ptr) (rootPtr l) (rootPtr m)
  let kA := max l.height m.height + 1
  let kB := max kA r.height + 1
  let h₁ := h.set b.ptr (nodeB hb)
  let h₂ := h₁.set a.ptr (nodeA ht)
  let h₃ := h₂.set a.ptr (nodeA kA)
  let h₄ := h₃.set b.ptr (nodeB kB)
  have hA₁ : h₁.cell a.ptr = _ := (Heap.set_ne hap.ab ..).trans hA
  have hupA : updateHeight h₂ (some a.ptr) = .ok h₃ :=
    updateHeight_ok (Heap.set_self ..) (nodeHeight_ok ((hl.set hap.b_l _).set hap.a_l _))
      (nodeHeight_ok ((hm.set hap.b_m _).set hap.a_m _))
  have hB₃ : h₃.cell b.ptr = some (nodeB hb) :=
    (Heap.set_ne hBA ..).trans ((Heap.set_ne hBA ..).trans (Heap.set_self ..))
  have hhA : nodeHeight h₃ (some a.ptr) = .ok kA := by
    simp [nodeHeight, Heap.get_ok (Heap.set_self h₂ a.ptr (nodeA kA)), h₃, nodeA]
  have hupB : updateHeight h₃ (some b.ptr) = .ok h₄ :=
    updateHeight_ok hB₃ hhA
      (nodeHeight_ok (((hr.set hap.b_r _).set hap.a_r _).set hap.a_r _))
  have hrun : lowerRoot d h (some b.ptr) (some a.ptr) = .ok h₄ := by
    have hA₁' := Heap.modify_ok hA₁ (Node.withParent (some b.ptr))
    simp only [nodeOn_withParent] at hA₁'
    simp only [lowerRoot, Heap.modify_ok hB, nodeOn_setChild_flip, ok_bind, setParent]
    rw [hA₁', ok_bind, hupA, ok_bind, hupB]
  refine ⟨h₄, hrun, rep_build.mpr ⟨Heap.set_self .., rep_build.mpr ⟨?_, ?_, ?_⟩, ?_⟩, ?_⟩
  · exact (Heap.set_ne hap.ab ..).trans (Heap.set_self ..)
  · exact (((hl.set hap.b_l _).set hap.a_l _).set hap.a_l _).set hap.b_l _
  · exact (((hm.set hap.b_m _).set hap.a_m _).set hap.a_m _).set hap.b_m _
  · exact (((hr.set hap.b_r _).set hap.a_r _).set hap.a_r _).set hap.b_r _
  · exact (((Heap.SameOff.set (by simp) h _).trans (.set (by simp) h₁ _)).trans
      (.set (by simp) h₂ _)).trans (.set (by simp) h₃ _)

theorem raisePivot_ok (hap : Apart a b l m r fs)
    (hA : h.cell a.ptr = some (nodeOn d a ht (pathPtr fs) (rootPtr l) (some b.ptr)))
    (hB : h.cell b.ptr = some (nodeOn d b hb (some a.ptr) (rootPtr m) (rootPtr r)))
    (hl : Rep h (some a.ptr) l) (hm : Rep h (some b.ptr) m) (hr : Rep h (some b.ptr) r)
    (hpath : RepPath h (some a.ptr) fs) :
    ∃ h', raisePivot d h (some b.ptr) (some a.ptr) (pathPtr fs) = .ok h' ∧
      h'.cell a.ptr = some (nodeOn d a ht (pathPtr fs) (rootPtr l) (rootPtr m)) ∧
      h'.cell b.ptr = some (nodeOn d b hb (pathPtr fs) (rootPtr m) (rootPtr r)) ∧
      Rep h' (some a.ptr) l ∧ Rep h' (some a.ptr) m ∧ Rep h' (some b.ptr) r ∧
      RepPath h' (some b.ptr) fs ∧
      h.SameOff (a.ptr :: b.ptr :: (ptrs m ++ pathPtrs fs)) h' := by
  have hBA := hap.ab.symm
  have hMm : ∀ p, p ∈ (rootPtr m).toList → p ∈ ptrs m := fun p hp =>
    rootPtr_mem (Option.mem_toList.mp hp)
  -- the pivot gets the parent of the old root, whose child pointer follows
  let h₁ := h.set b.ptr (nodeOn d b hb (pathPtr fs) (rootPtr m) (rootPtr r))
  obtain ⟨h₂, he₂, hpath₂, hsame₂⟩ := replaceChild_ok (h := h₁) (q := b.ptr)
    (hpath.set hap.b_fs _) hap.nodup_fs hap.a_fs
  have hB₂ := (hsame₂.2 b.ptr (fun hmem => hap.b_fs (pathPtr_mem hmem))).trans (Heap.set_self ..)
  have hA₂ := ((hsame₂.2 a.ptr (fun hmem => hap.a_fs (pathPtr_mem hmem))).trans
    (Heap.set_ne hap.ab ..)).trans hA
  -- the inner subtree moves from the pivot to the old root
  let h₃ := h₂.set a.ptr (nodeOn d a ht (pathPtr fs) (rootPtr l) (rootPtr m))
  have hm₃ : Rep h₃ (some b.ptr) m :=
    ((hm.set hap.b_m _).sameOff hsame₂ fun p hp hmem => hap.m_fs p hp (pathPtr_mem hmem)).set
      hap.a_m _
  obtain ⟨h₄, he₄, hm₄, hsame₄⟩ := setParent_ok hm₃ hap.nodup_m (some a.ptr)
  have hrun : raisePivot d h (some b.ptr) (some a.ptr) (pathPtr fs) = .ok h₄ := by
    simp only [raisePivot, Heap.modify_ok hB, nodeOn_withParent, ok_bind]
    rw [he₂, ok_bind, Heap.get_ok hB₂, ok_bind, nodeOn_child_flip, Heap.modify_ok hA₂,
      nodeOn_setChild, ok_bind, he₄]
  refine ⟨h₄, hrun, ?_, ?_, ?_, hm₄, ?_, ?_, ?_⟩
  · exact (hsame₄.2 a.ptr (fun hmem => hap.a_m (hMm _ hmem))).trans (Heap.set_self ..)
  · exact ((hsame₄.2 b.ptr (fun hmem => hap.b_m (hMm _ hmem))).trans (Heap.set_ne hBA ..)).trans
      hB₂
  · exact (((hl.set hap.b_l _).sameOff hsame₂
      fun p hp hmem => hap.l_fs p hp (pathPtr_mem hmem)).set hap.a_l _).sameOff hsame₄
        fun p hp hmem => hap.l_m p hp (hMm p hmem)
  · exact (((hr.set hap.b_r _).sameOff hsame₂
      fun p hp hmem => hap.r_fs p hp (pathPtr_mem hmem)).set hap.a_r _).sameOff hsame₄
        fun p hp hmem => hap.m_r p (hMm p hmem) hp
  · exact (hpath₂.set hap.a_fs _).sameOff hsame₄ fun p hp hmem => hap.m_fs p (hMm p hmem) hp
  · exact (((Heap.SameOff.set (by simp) h _).trans
      (hsame₂.mono fun p hp => by simp [pathPtr_mem hp])).trans (.set (by simp) h₂ _)).trans
        (hsame₄.mono fun p hp => by simp [hMm p hp])

/-- A rotation turns the pivot's node `b` into the root of the subtree; what lies
below the two nodes and the path above stay represented. -/
theorem rotate_rep (hrep : Rep h (pathPtr fs) (build d l a ht (build d m b hb r)))
    (hpath : RepPath h (some a.ptr) fs)
    (hnd : (ptrs (build d l a ht (build d m b hb r)) ++ pathPtrs fs).Nodup) :
    ∃ h', rotate d h (some b.ptr) = .ok h' ∧
      Rep h' (pathPtr fs) (mk d (mk d l a m) b r) ∧ RepPath h' (some b.ptr) fs ∧
      h.SameOff (ptrs (build d l a ht (build d m b hb r)) ++ pathPtrs fs) h' := by
  have hap := apart_of_nodup hnd
  obtain ⟨hA, hl, hrest⟩ := rep_build.mp hrep
  obtain ⟨hB, hm, hr⟩ := rep_build.mp hrest
  rw [rootPtr_build] at hA
  obtain ⟨h₁, he₁, hA₁, hB₁, hl₁, hm₁, hr₁, hpath₁, hsame₁⟩ := raisePivot_ok hap hA hB hl hm hr hpath
  obtain ⟨h₂, he₂, hrep₂, hsame₂⟩ := lowerRoot_ok hap hA₁ hB₁ hl₁ hm₁ hr₁
  refine ⟨h₂, ?_, hrep₂, hpath₁.sameOff hsame₂ ?_, (hsame₁.mono ?_).trans (hsame₂.mono ?_)⟩
  · simp only [rotate, Heap.get_ok hB, ok_bind, nodeOn_parent, Heap.get_ok hA, nodeOn_child, ne_eq,
      not_true_eq_false, if_false]
    rw [he₁, ok_bind, he₂]
  · intro p hp hmem
    rcases List.mem_pair.mp hmem with rfl | rfl
    · exact hap.a_fs hp
    · exact hap.b_fs hp
  · intro p hp
    simp only [List.mem_cons, List.mem_append, mem_ptrs_build] at hp ⊢
    tauto
  · intro p hp
    simp only [List.mem_cons, List.mem_append, mem_ptrs_build, List.not_mem_nil] at hp ⊢
    tauto

end

end ArmciMpi.ConflictTree
