import ArmciMpi.ConflictTree.Rep

/-!
# Insertion into the conflict tree

The balancing loop refines rebalancing along a path of the represented tree
(`ctreeBalance_rep`), and the search loop of `ctree_insert` either meets a
stored range that shares an address with the new one or links the new node
where the order wants it (`insertAt_ok`). No assertion, error or bad pointer is
met on the way.
-/

namespace ArmciMpi.ConflictTree

open Lib (Dir BinTree Frame Path)
open Lib.BinTree (build mk)

-- ------------------------------
-- Balancing
-- ------------------------------

theorem ptrs_rotate (d : Dir) (l : BinTree Cell) (a : Cell) (ht : Int) (m : BinTree Cell) (b : Cell)
    (hb : Int) (r : BinTree Cell) :
    ptrs (mk d (mk d l a m) b r) = ptrs (build d l a ht (build d m b hb r)) := by
  simp [ptrs, BinTree.inorderOn_assoc]

/-- A node with its subtree has the same pointers as the subtree with the node as
a frame. -/
theorem nodup_frame {f : Frame Cell} {fs : Path Cell} {t : BinTree Cell} :
    (ptrs (f.fill t) ++ pathPtrs fs).Nodup ↔ (ptrs t ++ pathPtrs (f :: fs)).Nodup := by
  have hperm := (ptrs_plug_perm fs (f.fill t)).symm.trans (ptrs_plug_perm (f :: fs) t)
  exact hperm.nodup_iff

theorem Rep.root_cell {h : Heap} {parent : Ptr} {t : BinTree Cell} {p : Nat} (hr : Rep h parent t)
    (hp : rootPtr t = some p) : ∃ n, h.cell p = some n ∧ n.parent = parent := by
  cases t with
  | leaf => cases hp
  | node l a ht r =>
    cases hp
    exact ⟨_, hr.1, rfl⟩

/-- The outcome of work on a subtree: the heap has `t` in its place. -/
structure Placed (h : Heap) (fs : Path Cell) (t₀ : BinTree Cell) (h' : Heap) (t : BinTree Cell) :
    Prop where
  rep : Rep h' (pathPtr fs) t
  path : RepPath h' (rootPtr t) fs
  ptrs : ptrs t = ptrs t₀
  same : h.SameOff (ConflictTree.ptrs t₀ ++ pathPtrs fs) h'

section
variable {h : Heap} {fs : Path Cell} {d : Dir} {o c l r t : BinTree Cell} {a : Cell} {ht : Int}

theorem rotate_placed {m : BinTree Cell} {b : Cell} {hb : Int}
    (hrep : Rep h (pathPtr fs) (build d l a ht (build d m b hb r)))
    (hpath : RepPath h (some a.ptr) fs)
    (hnd : (ptrs (build d l a ht (build d m b hb r)) ++ pathPtrs fs).Nodup) :
    ∃ h', rotate d h (some b.ptr) = .ok h' ∧
      Placed h fs (build d l a ht (build d m b hb r)) h' (mk d (mk d l a m) b r) := by
  obtain ⟨h', he, hrep', hpath', hsame⟩ := rotate_rep hrep hpath hnd
  exact ⟨h', he, hrep', hpath', ptrs_rotate .., hsame⟩

theorem rotateHeavy_placed (hrep : Rep h (pathPtr fs) (build d o a ht c))
    (hpath : RepPath h (some a.ptr) fs) (hnd : (ptrs (build d o a ht c) ++ pathPtrs fs).Nodup)
    (hreb : BinTree.rebalanceHeavy d o a c = some t) :
    ∃ h' p, rotateHeavy d h (some a.ptr) = .ok (h', some p) ∧ rootPtr t = some p ∧
      Placed h fs (build d o a ht c) h' t := by
  cases c with
  | leaf => cases hreb
  | node cl b hb cr =>
    rw [BinTree.eq_build d] at *
    generalize d.pick cr cl = i at *
    generalize d.pick cl cr = u at *
    obtain ⟨hA, ho, hc⟩ := rep_build.mp hrep
    obtain ⟨hB, hi, hu⟩ := rep_build.mp hc
    rw [rootPtr_build] at hA
    simp only [rotateHeavy, Heap.get_ok hA, ok_bind, nodeOn_child, Heap.get_ok hB,
      nodeOn_child_flip, nodeHeight_ok hi, nodeHeight_ok hu]
    by_cases hsingle : i.height - u.height ≤ 0
    · rw [BinTree.rebalanceHeavy_single hsingle, Option.some.injEq] at hreb
      subst hreb
      obtain ⟨h', he, hpl⟩ := rotate_placed hrep hpath hnd
      refine ⟨h', b.ptr, ?_, rfl, hpl⟩
      rw [if_pos hsingle, he]
      rfl
    · cases i with
      | leaf =>
        -- an empty inner subtree is not deeper than the outer one
        rw [BinTree.rebalanceHeavy_leaf hsingle] at hreb
        cases hreb
      | node m e he n =>
        rw [BinTree.eq_build d] at *
        generalize d.pick n m = m' at *
        generalize d.pick m n = n' at *
        rw [BinTree.rebalanceHeavy_double (k := he) hsingle, Option.some.injEq] at hreb
        subst hreb
        -- the inner subtree's root is first rotated above `b`, then above `a`
        have hflip : build d.flip u b hb (build d.flip n' e he m') =
            build d (build d m' e he n') b hb u := by rw [BinTree.build_flip, BinTree.build_flip]
        have hpath' : RepPath h (some b.ptr) (⟨d, a, ht, o⟩ :: fs) := ⟨hA, ho, hpath⟩
        obtain ⟨h₁, he₁, hpl₁⟩ := rotate_placed (hflip ▸ hc) hpath'
          (by rw [hflip]; exact nodup_frame.mp hnd)
        rw [BinTree.mk_flip, BinTree.mk_flip] at hpl₁
        obtain ⟨hA₁, ho₁, hpath₁⟩ := hpl₁.path
        have hptrs₁ : ptrs (build d o a ht (mk d m' e (mk d n' b u))) =
            ptrs (build d o a ht (build d (build d m' e he n') b hb u)) := by
          simp [ptrs, BinTree.inorderOn_assoc]
        obtain ⟨h₂, he₂, hpl₂⟩ := rotate_placed (rep_build.mpr ⟨hA₁, ho₁, hpl₁.rep⟩) hpath₁
          (by rw [← mk, hptrs₁]; exact hnd)
        refine ⟨h₂, e.ptr, ?_, rfl, hpl₂.rep, hpl₂.path, hpl₂.ptrs.trans hptrs₁, ?_⟩
        · simp only [if_neg hsingle, rootPtr_build, he₁, ok_bind, Heap.get_ok hA₁, nodeOn_child]
          show (rotate d h₁ (some e.ptr) >>= fun h => pure (h, some e.ptr)) = _
          rw [he₂]
          rfl
        · refine (hpl₁.same.mono ?_).trans (hptrs₁ ▸ hpl₂.same)
          intro p hp
          rw [hflip] at hp
          simp only [pathPtrs, List.mem_append, List.mem_cons, mem_ptrs_build] at hp ⊢
          tauto

theorem rebalance_placed (hrep : Rep h (pathPtr fs) (.node l a ht r))
    (hpath : RepPath h (some a.ptr) fs) (hnd : (ptrs (.node l a ht r) ++ pathPtrs fs).Nodup)
    (hreb : BinTree.rebalance l a r = some t) :
    ∃ h' p, balanceNode h (some a.ptr) = .ok (h', some p) ∧ rootPtr t = some p ∧
      Placed h fs (.node l a ht r) h' t := by
  -- the height of the node is set before anything is rotated
  let h₀ := h.set a.ptr (nodeOn .right a (max l.height r.height + 1) (pathPtr fs) (rootPtr l)
    (rootPtr r))
  have hA : h.cell a.ptr = some (nodeOn .right a ht (pathPtr fs) (rootPtr l) (rootPtr r)) := hrep.1
  have hflat := ((ptrs_build_perm .right l a ht r).append_right _).nodup_iff.mp hnd
  simp only [List.cons_append, List.nodup_cons, List.mem_append, not_or] at hflat
  obtain ⟨⟨⟨hal, har⟩, hafs⟩, -⟩ := hflat
  have hup : updateHeight h (some a.ptr) = .ok h₀ :=
    updateHeight_ok hA (nodeHeight_ok hrep.2.1) (nodeHeight_ok hrep.2.2)
  have hrep₀ : Rep h₀ (pathPtr fs) (.node l a (max l.height r.height + 1) r) :=
    ⟨Heap.set_self .., hrep.2.1.set hal _, hrep.2.2.set har _⟩
  have hpath₀ : RepPath h₀ (some a.ptr) fs := hpath.set hafs _
  have hsame₀ : h.SameOff (ptrs (.node l a ht r) ++ pathPtrs fs) h₀ :=
    .set (List.mem_append_left _ (rootPtr_mem rfl)) h _
  simp only [balanceNode, Heap.get_ok hA, ok_bind, nodeOn_left, nodeOn_right, Dir.pick,
    nodeHeight_ok hrep.2.1, nodeHeight_ok hrep.2.2, hup]
  unfold BinTree.rebalance at hreb
  split at hreb
  · rename_i hfar
    rw [if_pos hfar]
    split at hreb
    · rename_i hright
      rw [if_pos hright]
      obtain ⟨h', p, he, hp, hpl⟩ := rotateHeavy_placed (d := .right) hrep₀ hpath₀ hnd hreb
      exact ⟨h', p, he, hp, hpl.rep, hpl.path, hpl.ptrs, hsame₀.trans hpl.same⟩
    · rename_i hright
      rw [if_neg hright]
      split at hreb
      · rename_i hleft
        rw [if_pos hleft]
        obtain ⟨h', p, he, hp, hpl⟩ := rotateHeavy_placed (d := .left) hrep₀ hpath₀ hnd hreb
        exact ⟨h', p, he, hp, hpl.rep, hpl.path, hpl.ptrs, hsame₀.trans hpl.same⟩
      · cases hreb
  · rename_i hnear
    rw [if_neg hnear]
    cases hreb
    exact ⟨h₀, a.ptr, rfl, rfl, hrep₀, hpath₀, rfl, hsame₀⟩

/-- The loop rebalances every node of the path, and ends at the root. The
induction is on the path. -/
theorem ctreeBalance_rep (root : Ptr) {fuel : Nat} (hrep : Rep h (pathPtr fs) t)
    (hpath : RepPath h (rootPtr t) fs) (hnd : (ptrs t ++ pathPtrs fs).Nodup)
    (hroot : fs = [] → root = rootPtr t) (hfuel : fs.length ≤ fuel)
    (hreb : fs.rebalance t = some t') :
    ∃ h', ctreeBalance fuel h root (pathPtr fs) = .ok (h', rootPtr t') ∧ Rep h' none t' ∧
      (ptrs t').Perm (ptrs t ++ pathPtrs fs) ∧ h.SameOff (ptrs t ++ pathPtrs fs) h' := by
  induction fs generalizing h t root fuel with
  | nil =>
    cases hreb
    refine ⟨h, ?_, hrep, by simp [pathPtrs], .refl _ h⟩
    rw [hroot rfl]
    unfold ctreeBalance
    rfl
  | cons f fs ih =>
    obtain ⟨u, hu, hrest⟩ := Option.bind_eq_some_iff.mp hreb
    obtain ⟨hf, hs, hfs⟩ := hpath
    have hfill : Rep h (pathPtr fs) (f.fill t) := rep_build.mpr ⟨hf, hs, hrep⟩
    obtain ⟨h₁, p, he₁, hp, hpl⟩ := rebalance_placed hfill hfs (nodup_frame.mpr hnd) hu
    cases fuel with
    | zero => cases hfuel
    | succ fuel =>
      have hperm₁ : (ptrs u ++ pathPtrs fs).Perm (ptrs t ++ pathPtrs (f :: fs)) := by
        rw [hpl.ptrs]
        exact (ptrs_plug_perm fs (f.fill t)).symm.trans (ptrs_plug_perm (f :: fs) t)
      obtain ⟨h', he', hrep', hperm', hsame'⟩ := ih _ hpl.rep hpl.path
        (hperm₁.nodup_iff.mpr hnd) (fun _ => hp.symm) (Nat.le_of_succ_le_succ hfuel) hrest
      refine ⟨h', ?_, hrep', hperm'.trans hperm₁, ?_⟩
      · obtain ⟨n, hn, hparent⟩ := hpl.rep.root_cell hp
        show (balanceNode h (some f.a.ptr) >>= fun x =>
          x.1.get x.2 >>= fun n => ctreeBalance fuel x.1 x.2 n.parent) = _
        rw [he₁, ok_bind, Heap.get_ok hn, ok_bind, hparent, he']
      · refine (hpl.same.mono ?_).trans (hsame'.mono fun q hq => hperm₁.mem_iff.mp hq)
        exact fun q hq => hperm₁.mem_iff.mp (hpl.ptrs ▸ hq)

end

-- ------------------------------
-- Searching for the place
-- ------------------------------

def Ordered (cells : List Cell) : Prop :=
  (∀ x ∈ cells, x.lo ≤ x.hi) ∧ cells.Pairwise fun x y => x.hi < y.lo

def Between (lo hi : Int) (pre post : List Cell) : Prop :=
  (∀ x ∈ pre, x.hi < lo) ∧ ∀ x ∈ post, hi < x.lo

def Cell.Meets (x : Cell) (lo hi : Int) : Prop := lo ≤ x.hi ∧ x.lo ≤ hi

def sideFor (a : Cell) (lo : Int) : Dir := if lo < a.lo then .left else .right

section
variable {h : Heap} {fs : Path Cell} {a : Cell} {ht : Int} {lo hi : Int} {new : Nat}

theorem conflicts_iff {n : Node} (hn : n.lo ≤ n.hi) (hle : lo ≤ hi) :
    n.Conflicts lo hi ↔ lo ≤ n.hi ∧ n.lo ≤ hi := by
  unfold Node.Conflicts
  omega

theorem between_frame {s c : BinTree Cell} (hord : Ordered (fs.plug (build d s a ht c)).inorder)
    (hd : d = sideFor a lo) (hmeet : ¬ a.Meets lo hi) (hle : lo ≤ hi)
    (hb : Between lo hi fs.before fs.after) :
    Between lo hi (Path.before (⟨d, a, ht, s⟩ :: fs)) (Path.after (⟨d, a, ht, s⟩ :: fs)) := by
  rw [Path.inorder_plug, BinTree.inorder_build] at hord
  obtain ⟨hne, hpw⟩ := hord
  have ha := hne a (by cases d <;> simp [BinTree.inorderOn, Dir.pick])
  unfold Cell.Meets at hmeet
  unfold sideFor at hd
  have hpw' := ((List.pairwise_append.mp hpw).1 |> List.pairwise_append.mp).2.1
  split at hd
  · subst hd
    refine ⟨fun x hx => hb.1 x (by simpa [Path.before, Frame.before, Dir.pick] using hx),
      fun x hx => ?_⟩
    simp only [BinTree.inorderOn, Dir.pick, List.pairwise_append, List.pairwise_cons] at hpw'
    simp only [Path.after, Frame.after, Dir.pick, List.cons_append, List.mem_cons,
      List.mem_append] at hx
    rcases hx with rfl | hx | hx
    · omega
    · have := hpw'.2.1.1 x hx
      omega
    · exact hb.2 x hx
  · subst hd
    refine ⟨fun x hx => ?_,
      fun x hx => hb.2 x (by simpa [Path.after, Frame.after, Dir.pick] using hx)⟩
    simp only [BinTree.inorderOn, Dir.pick, List.pairwise_append, List.mem_cons] at hpw'
    simp only [Path.before, Frame.before, Dir.pick, List.mem_append, List.mem_singleton] at hx
    rcases hx with hx | hx | rfl
    · exact hb.1 x hx
    · have := hpw'.2.2 x hx a (.inl rfl)
      omega
    · omega

structure Inserting (h : Heap) (c : Cell) (t : BinTree Cell) : Prop where
  rep : Rep h none t
  nodup : (c.ptr :: ptrs t).Nodup
  avl : t.Avl
  ordered : Ordered t.inorder
  cell : h.cell c.ptr = some ⟨c.lo, c.hi, 1, none, none, none⟩
  le : c.lo ≤ c.hi
  room : (ptrs t).length ≤ h.next

structure Inserted (h : Heap) (c : Cell) (t : BinTree Cell) (h' : Heap) (t' : BinTree Cell) : Prop where
  rep : Rep h' none t'
  avl : t'.Avl
  place : ∃ pre post, t.inorder = pre ++ post ∧ t'.inorder = pre ++ c :: post ∧
    Between c.lo c.hi pre post
  same : h.SameOff (c.ptr :: ptrs t) h'

theorem length_le_pathPtrs (fs : Path Cell) : fs.length ≤ (pathPtrs fs).length := by
  induction fs with
  | nil => simp
  | cons f fs ih =>
    simp only [pathPtrs, List.length_append, List.length_cons]
    omega

theorem link_ok {c : Cell} {s : BinTree Cell}
    (hins : Inserting h c (Path.plug (⟨d, a, ht, s⟩ :: fs) .leaf))
    (hb : Between c.lo c.hi (Path.before (⟨d, a, ht, s⟩ :: fs))
      (Path.after (⟨d, a, ht, s⟩ :: fs))) :
    ∃ h₁ h₂ h' t', h.modify (some c.ptr) (Node.withParent (some a.ptr)) = .ok h₁ ∧
      h₁.modify (some a.ptr) (Node.setChild d (some c.ptr)) = .ok h₂ ∧
      ctreeBalance h₂.next h₂ (some a.ptr) (some a.ptr) = .ok (h', rootPtr t') ∧
      Inserted h c (Path.plug (⟨d, a, ht, s⟩ :: fs) .leaf) h' t' := by
  obtain ⟨⟨hA, hs, hfs⟩, -⟩ := rep_plug.mp hins.rep
  have hperm := ptrs_plug_perm (⟨d, a, ht, s⟩ :: fs) BinTree.leaf
  have hnd := (hperm.cons c.ptr).nodup_iff.mp hins.nodup
  have hroom := hperm.length_eq ▸ hins.room
  simp only [ptrs, BinTree.inorder, List.map_nil, List.nil_append] at hperm hnd hroom
  have hnew := (List.nodup_cons.mp hnd).1
  have hpnd := (List.nodup_cons.mp hnd).2
  simp only [pathPtrs, List.cons_append, List.nodup_cons, List.mem_cons, List.mem_append,
    not_or] at hnew hpnd
  -- The new node is a balanced tree of its own, under `a` where there was none.
  set h₁ := h.set c.ptr ⟨c.lo, c.hi, 1, some a.ptr, none, none⟩
  set h₂ := h₁.set a.ptr (nodeOn d a ht (pathPtr fs) (rootPtr s) (some c.ptr))
  have hA₁ : h₁.cell a.ptr = some (nodeOn d a ht (pathPtr fs) (rootPtr s) none) :=
    (Heap.set_ne (Ne.symm hnew.1) _ _).trans hA
  have hone : Rep h₂ (some a.ptr) (.single c) :=
    ⟨(Heap.set_ne hnew.1 _ _).trans (Heap.set_self _ _ _), trivial, trivial⟩
  have hpath : RepPath h₂ (some c.ptr) (⟨d, a, ht, s⟩ :: fs) :=
    ⟨Heap.set_self _ _ _, (hs.set hnew.2.1 _).set hpnd.1.1 _, (hfs.set hnew.2.2 _).set hpnd.1.2 _⟩
  have hbal := (Path.avl_plug.mp hins.avl).2
  obtain ⟨t', hreb, havl, hino⟩ := Path.rebalance_ok (BinTree.avl_single c) hbal
    (by simp) (by simp)
  obtain ⟨h', he, hrep, hperm', hsame⟩ := ctreeBalance_rep (some a.ptr) hone hpath
    (by simpa [ptrs] using hnd) (fun hnil => by cases hnil)
    ((length_le_pathPtrs _).trans hroom) hreb
  refine ⟨h₁, h₂, h', t', Heap.modify_ok hins.cell _, ?_, he, hrep, havl, ?_, ?_⟩
  · rw [Heap.modify_ok hA₁, nodeOn_setChild]
  · refine ⟨_, _, by rw [Path.inorder_plug, BinTree.inorder, List.append_nil], ?_, hb⟩
    simpa using hino
  · have hsub : ptrs (.single c) ++ pathPtrs (⟨d, a, ht, s⟩ :: fs) ⊆
        c.ptr :: ptrs (Path.plug (⟨d, a, ht, s⟩ :: fs) .leaf) := by
      intro q hq
      simpa [ptrs, hperm.mem_iff] using hq
    refine (((Heap.SameOff.set ?_ h _).trans (.set ?_ h₁ _)).trans (hsame.mono hsub))
    · simp
    · exact List.mem_cons_of_mem _ (hperm.mem_iff.mpr (by simp [pathPtrs]))

theorem ptrs_length_build (d : Dir) (s : BinTree Cell) (a : Cell) (ht : Int) (c : BinTree Cell) :
    (ptrs (build d s a ht c)).length = (ptrs s).length + (ptrs c).length + 1 := by
  simpa using (ptrs_build_perm d s a ht c).length_eq

theorem exists_build {u : BinTree Cell} {p : Nat} (hu : rootPtr u = some p) (side : Cell → Dir) :
    ∃ a ht s v, u = build (side a) s a ht v ∧ a.ptr = p := by
  cases u with
  | leaf => cases hu
  | node l a ht r =>
    refine ⟨a, ht, (side a).pick r l, (side a).pick l r, ?_, Option.some.inj hu⟩
    cases side a <;> rfl

theorem insertAt_free {n : Node} {cur : Nat} (hn : h.cell cur = some n) (hc : n.Conflicts lo hi)
    (fuel : Nat) : insertAt (fuel + 1) h new lo hi cur = .ok (h.free new, none) := by
  rw [insertAt, Heap.get_ok hn, ok_bind, if_pos hc]
  rfl

theorem insertAt_down {n : Node} {cur q : Nat} (hn : h.cell cur = some n)
    (hc : ¬ n.Conflicts lo hi)
    (hq : n.child (if lo < n.lo then Dir.left else Dir.right) = some q) (fuel : Nat) :
    insertAt (fuel + 1) h new lo hi cur = insertAt fuel h new lo hi q := by
  rw [insertAt, Heap.get_ok hn, ok_bind, if_neg hc]
  simp only [hq]

theorem insertAt_link {n : Node} {cur : Nat} {root : Ptr} {h₁ h₂ h' : Heap}
    (hn : h.cell cur = some n) (hc : ¬ n.Conflicts lo hi)
    (hd : d = if lo < n.lo then Dir.left else Dir.right) (hq : n.child d = none)
    (he₁ : h.modify (some new) (Node.withParent (some cur)) = .ok h₁)
    (he₂ : h₁.modify (some cur) (Node.setChild d (some new)) = .ok h₂)
    (he : ctreeBalance h₂.next h₂ (some cur) (some cur) = .ok (h', root)) (fuel : Nat) :
    insertAt (fuel + 1) h new lo hi cur = .ok (h', some root) := by
  rw [insertAt, Heap.get_ok hn, ok_bind, if_neg hc]
  simp only [← hd, hq, he₁, ok_bind, he₂, he]
  rfl

/-- Either a stored range meets the new one and its node is freed, or the node
is linked. The induction is on the fuel, which covers the subtree at `cur`. -/
theorem insertAt_ok {c : Cell} {t u : BinTree Cell} {cur fuel : Nat} (hins : Inserting h c t)
    (hplug : t = fs.plug u) (hcur : rootPtr u = some cur)
    (hb : Between c.lo c.hi fs.before fs.after) (hfuel : (ptrs u).length ≤ fuel) :
    (∃ x ∈ t.inorder, x.Meets c.lo c.hi) ∧
        insertAt fuel h c.ptr c.lo c.hi cur = .ok (h.free c.ptr, none) ∨
      ∃ h' t', insertAt fuel h c.ptr c.lo c.hi cur = .ok (h', some (rootPtr t')) ∧
        Inserted h c t h' t' := by
  induction fuel generalizing fs u cur with
  | zero =>
    obtain ⟨a, ht, s, v, rfl, rfl⟩ := exists_build hcur fun _ => .left
    simp [ptrs_length_build] at hfuel
  | succ fuel ih =>
    obtain ⟨a, ht, s, v, rfl, rfl⟩ := exists_build hcur fun a => sideFor a c.lo
    obtain ⟨hA, hs, hv⟩ := rep_build.mp (rep_plug.mp (hplug ▸ hins.rep)).2
    have hmem : a ∈ t.inorder := by
      rw [hplug, Path.inorder_plug, BinTree.inorder_build]
      cases sideFor a c.lo <;> simp [BinTree.inorderOn, Dir.pick]
    have hconf := conflicts_iff (n := nodeOn (sideFor a c.lo) a ht (pathPtr fs) (rootPtr s)
      (rootPtr v)) (hins.ordered.1 a hmem) hins.le
    by_cases hmeet : a.Meets c.lo c.hi
    · exact .inl ⟨⟨a, hmem, hmeet⟩, insertAt_free hA (hconf.mpr hmeet) fuel⟩
    have hpass := fun hc => hmeet (hconf.mp hc)
    have hb' := between_frame (hplug ▸ hins.ordered) rfl hmeet hins.le hb
    rw [ptrs_length_build] at hfuel
    cases hq : rootPtr v with
    | none =>
      cases v with
      | node l b hb r => cases hq
      | leaf =>
        subst hplug
        obtain ⟨h₁, h₂, h', t', he₁, he₂, he, hdone⟩ := link_ok hins hb'
        exact .inr ⟨h', t', insertAt_link hA hpass rfl nodeOn_child he₁ he₂ he fuel, hdone⟩
    | some q =>
      rw [insertAt_down hA hpass (nodeOn_child.trans hq)]
      exact ih (hplug.trans (Path.plug_cons ⟨_, a, ht, s⟩ fs v).symm) hq hb' (by omega)

end

end ArmciMpi.ConflictTree
