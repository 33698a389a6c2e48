import Mathlib.Data.List.Basic
import Mathlib.Data.Nat.Log
import Mathlib.Order.Lattice
import Mathlib.Algebra.Group.Nat.Defs
import Mathlib.Algebra.Order.Group.Unbundled.Int

/-!
# Height-balanced trees

Binary trees whose nodes store a height. A tree is `Avl` when every stored
height is the depth and the depths of siblings differ by at most one.
`rebalance` puts two such trees under a node when their depths differ by at
most two, with the stored heights deciding between the rotations;
`rebalance_ok` is its specification. The two mirror images of every operation
are one definition with a direction.

A `Frame` is a node with one subtree missing. A list of frames, innermost
first, is the path from a subtree to the root, and `Path.Balanced` says that
the tree around the hole is balanced for a subtree of a given depth. Replacing
the subtree by one that is at most one deeper and rebalancing upwards gives a
balanced tree again (`Path.rebalance_ok`).
-/

namespace Lib

inductive Dir where
  | left
  | right
  deriving DecidableEq

namespace Dir

def flip : Dir → Dir
  | left => right
  | right => left

def pick (d : Dir) (l r : β) : β :=
  match d with
  | left => l
  | right => r

end Dir

inductive BinTree (α : Type) where
  | leaf
  | node (l : BinTree α) (a : α) (ht : Int) (r : BinTree α)

namespace BinTree

variable {α : Type}

def depth : BinTree α → Int
  | leaf => 0
  | node l _ _ r => max l.depth r.depth + 1

def height : BinTree α → Int
  | leaf => 0
  | node _ _ ht _ => ht

def inorder : BinTree α → List α
  | leaf => []
  | node l a _ r => l.inorder ++ a :: r.inorder

def Avl : BinTree α → Prop
  | leaf => True
  | node l _ ht r =>
    l.Avl ∧ r.Avl ∧ ht = max l.depth r.depth + 1 ∧ l.depth - r.depth ≤ 1 ∧ r.depth - l.depth ≤ 1

/-- The node with `c` on side `d` and `o` on the other side. -/
def build (d : Dir) (o : BinTree α) (a : α) (ht : Int) (c : BinTree α) : BinTree α :=
  node (d.pick c o) a ht (d.pick o c)

def mk (d : Dir) (o : BinTree α) (a : α) (c : BinTree α) : BinTree α :=
  build d o a (max o.height c.height + 1) c

def single (a : α) : BinTree α := .node .leaf a 1 .leaf

@[simp] theorem depth_leaf : (leaf : BinTree α).depth = 0 := rfl

@[simp] theorem inorder_leaf : (leaf : BinTree α).inorder = [] := rfl

@[simp] theorem inorder_node (l : BinTree α) (a : α) (ht : Int) (r : BinTree α) :
    (node l a ht r).inorder = l.inorder ++ a :: r.inorder := rfl

@[simp] theorem height_build (d : Dir) (o : BinTree α) (a : α) (ht : Int) (c : BinTree α) :
    (build d o a ht c).height = ht := rfl

@[simp] theorem depth_build (d : Dir) (o : BinTree α) (a : α) (ht : Int) (c : BinTree α) :
    (build d o a ht c).depth = max o.depth c.depth + 1 := by
  cases d with
  | left => exact congrArg (· + 1) (max_comm _ _)
  | right => rfl

@[simp] theorem depth_mk (d : Dir) (o : BinTree α) (a : α) (c : BinTree α) :
    (mk d o a c).depth = max o.depth c.depth + 1 := depth_build ..

@[simp] theorem depth_single (a : α) : (single a).depth = 1 := rfl

@[simp] theorem inorder_single (a : α) : (single a).inorder = [a] := rfl

theorem avl_single (a : α) : (single a).Avl := by
  simp [single, Avl]

theorem depth_nonneg (t : BinTree α) : 0 ≤ t.depth := by
  induction t with
  | leaf => exact le_refl _
  | node l a ht r ihl ihr =>
    rw [depth]
    omega

theorem Avl.height_eq {t : BinTree α} (h : t.Avl) : t.height = t.depth := by
  cases t with
  | leaf => rfl
  | node l a ht r => exact h.2.2.1

/-- Balanced trees are shallow: a node holds a subtree at most one less deep on either side. -/
theorem Avl.two_pow_le {t : BinTree α} (h : t.Avl) :
    2 ^ (t.depth.toNat / 2) ≤ t.inorder.length + 1 := by
  induction t with
  | leaf => simp
  | node l a ht r ihl ihr =>
    obtain ⟨hl, hr, -, hlr, hrl⟩ := h
    have hlpos := l.depth_nonneg
    have hrpos := r.depth_nonneg
    have hdepth : (node l a ht r).depth = max l.depth r.depth + 1 := rfl
    generalize he : (node l a ht r).depth.toNat / 2 = e
    simp only [inorder_node, List.length_append, List.length_cons]
    -- an odd depth is paid for by the deeper subtree, an even one by both
    rcases (by omega : e ≤ l.depth.toNat / 2 ∨ e ≤ r.depth.toNat / 2 ∨
      0 < e ∧ e ≤ l.depth.toNat / 2 + 1 ∧ e ≤ r.depth.toNat / 2 + 1) with
      hle | hle | ⟨hpos, hel, her⟩
    · have := (Nat.pow_le_pow_right (by decide) hle).trans (ihl hl)
      omega
    · have := (Nat.pow_le_pow_right (by decide) hle).trans (ihr hr)
      omega
    · obtain ⟨k, rfl⟩ := Nat.exists_eq_add_of_lt hpos
      rw [Nat.zero_add] at hel her ⊢
      have hleft := (Nat.pow_le_pow_right (by decide) (Nat.le_of_succ_le_succ hel)).trans (ihl hl)
      have hright := (Nat.pow_le_pow_right (by decide) (Nat.le_of_succ_le_succ her)).trans (ihr hr)
      rw [Nat.pow_succ]
      omega

theorem Avl.depth_le {t : BinTree α} (h : t.Avl) :
    t.depth.toNat ≤ 2 * Nat.log 2 (t.inorder.length + 1) + 1 := by
  have := Nat.le_log_of_pow_le (by decide) h.two_pow_le
  omega

theorem avl_build {d : Dir} {o c : BinTree α} {a : α} {ht : Int} :
    (build d o a ht c).Avl ↔ o.Avl ∧ c.Avl ∧ ht = max o.depth c.depth + 1 ∧
      o.depth - c.depth ≤ 1 ∧ c.depth - o.depth ≤ 1 := by
  cases d with
  | left =>
    simp only [build, Dir.pick, Avl, max_comm o.depth]
    tauto
  | right => rfl

theorem Avl.mk {d : Dir} {o c : BinTree α} {a : α} (ho : o.Avl) (hc : c.Avl)
    (h₁ : o.depth - c.depth ≤ 1) (h₂ : c.depth - o.depth ≤ 1) : (mk d o a c).Avl :=
  avl_build.mpr ⟨ho, hc, by rw [ho.height_eq, hc.height_eq], h₁, h₂⟩

theorem eq_build (d : Dir) (l : BinTree α) (a : α) (ht : Int) (r : BinTree α) :
    node l a ht r = build d (d.pick r l) a ht (d.pick l r) := by
  cases d <;> rfl

theorem build_flip (d : Dir) (o : BinTree α) (a : α) (ht : Int) (c : BinTree α) :
    build d.flip o a ht c = build d c a ht o := by
  cases d <;> rfl

theorem mk_flip (d : Dir) (o : BinTree α) (a : α) (c : BinTree α) : mk d.flip o a c = mk d c a o := by
  rw [mk, mk, build_flip, max_comm]

-- ------------------------------
-- Rebalancing one node
-- ------------------------------

/-- The subtree `c` on side `d` is two deeper than `o`. -/
def rebalanceHeavy (d : Dir) (o : BinTree α) (a : α) : BinTree α → Option (BinTree α)
  | leaf => none
  | node l b _ r =>
    if (d.pick r l).height - (d.pick l r).height ≤ 0 then
      some (mk d (mk d o a (d.pick r l)) b (d.pick l r))
    else match d.pick r l with
      | leaf => none
      | node m c _ n => some (mk d (mk d o a (d.pick n m)) c (mk d (d.pick m n) b (d.pick l r)))

def rebalance (l : BinTree α) (a : α) (r : BinTree α) : Option (BinTree α) :=
  if 2 ≤ |l.height - r.height| then
    if l.height - r.height = -2 then rebalanceHeavy .right l a r
    else if l.height - r.height = 2 then rebalanceHeavy .left r a l
    else none
  else some (mk .right l a r)

/-- What a rebalanced node must be: the same elements, balanced, and as deep as
the deeper subtree or one more. -/
structure Joins (l : BinTree α) (a : α) (r t : BinTree α) : Prop where
  avl : t.Avl
  inorder : t.inorder = l.inorder ++ a :: r.inorder
  depth_ge : max l.depth r.depth ≤ t.depth
  depth_le : t.depth ≤ max l.depth r.depth + 1

theorem rebalanceHeavy_single {d : Dir} {i u : BinTree α} (h : i.height - u.height ≤ 0)
    (o : BinTree α) (a b : α) (ht : Int) :
    rebalanceHeavy d o a (build d i b ht u) = some (mk d (mk d o a i) b u) := by
  cases d <;> exact if_pos h

theorem rebalanceHeavy_leaf {d : Dir} {u : BinTree α} (h : ¬ (leaf : BinTree α).height - u.height ≤ 0)
    (o : BinTree α) (a b : α) (ht : Int) : rebalanceHeavy d o a (build d leaf b ht u) = none := by
  cases d <;> exact if_neg h

theorem rebalanceHeavy_double {d : Dir} {k : Int} {u : BinTree α} (h : ¬ k - u.height ≤ 0)
    (o : BinTree α) (a : α) (m : BinTree α) (c : α) (n : BinTree α) (b : α) (ht : Int) :
    rebalanceHeavy d o a (build d (build d m c k n) b ht u) =
      some (mk d (mk d o a m) c (mk d n b u)) := by
  cases d <;> exact if_neg h

/-- The elements in order, when `c` lies on side `d` of `a` and `o` on the other. -/
def inorderOn (d : Dir) (o : List α) (a : α) (c : List α) : List α :=
  d.pick (c ++ a :: o) (o ++ a :: c)

@[simp] theorem inorder_build (d : Dir) (o : BinTree α) (a : α) (ht : Int) (c : BinTree α) :
    (build d o a ht c).inorder = inorderOn d o.inorder a c.inorder := by
  cases d <;> rfl

@[simp] theorem inorder_mk (d : Dir) (o : BinTree α) (a : α) (c : BinTree α) :
    (mk d o a c).inorder = inorderOn d o.inorder a c.inorder := inorder_build ..

theorem inorderOn_assoc (d : Dir) (x : List α) (a : α) (y : List α) (b : α) (z : List α) :
    inorderOn d (inorderOn d x a y) b z = inorderOn d x a (inorderOn d y b z) := by
  cases d <;> simp [inorderOn, Dir.pick]

theorem rebalanceHeavy_ok {d : Dir} {o c : BinTree α} {a : α} (ho : o.Avl) (hc : c.Avl)
    (hd : c.depth = o.depth + 2) :
    ∃ t, rebalanceHeavy d o a c = some t ∧ t.Avl ∧
      t.inorder = inorderOn d o.inorder a c.inorder ∧ c.depth ≤ t.depth ∧
      t.depth ≤ c.depth + 1 := by
  have hpos := o.depth_nonneg
  cases c with
  | leaf => rw [depth_leaf] at hd; omega
  | node l b hb r =>
    rw [eq_build d] at *
    obtain ⟨hi, hu, -, hiu₁, hiu₂⟩ := avl_build.mp hc
    generalize d.pick r l = i at *
    generalize d.pick l r = u at *
    rw [depth_build] at *
    by_cases hsingle : i.height - u.height ≤ 0
    · rw [rebalanceHeavy_single hsingle]
      rw [hi.height_eq, hu.height_eq] at hsingle
      refine ⟨_, rfl, .mk (.mk ho hi ?_ ?_) hu ?_ ?_, ?_, ?_, ?_⟩
      case refine_5 => simp [inorderOn_assoc]
      all_goals ((try simp only [depth_mk]); omega)
    · cases i with
      | leaf =>
        have hu0 := u.depth_nonneg
        rw [hi.height_eq, hu.height_eq, depth_leaf] at hsingle
        omega
      | node m e he n =>
        rw [eq_build d] at *
        obtain ⟨hm, hn, -, hmn₁, hmn₂⟩ := avl_build.mp hi
        rw [rebalanceHeavy_double (k := he) hsingle]
        rw [hi.height_eq, hu.height_eq] at hsingle
        rw [depth_build] at *
        generalize d.pick n m = m' at *
        generalize d.pick m n = n' at *
        refine ⟨_, rfl, .mk (.mk ho hm ?_ ?_) (.mk hn hu ?_ ?_) ?_ ?_, ?_, ?_, ?_⟩
        case refine_7 => simp [inorderOn_assoc]
        all_goals ((try simp only [depth_mk]); omega)

theorem rebalance_ok {l r : BinTree α} {a : α} (hl : l.Avl) (hr : r.Avl)
    (h₁ : l.depth - r.depth ≤ 2) (h₂ : r.depth - l.depth ≤ 2) :
    ∃ t, rebalance l a r = some t ∧ Joins l a r t ∧
      (l.depth - r.depth ≤ 1 → r.depth - l.depth ≤ 1 → t.depth = max l.depth r.depth + 1) := by
  simp only [rebalance, hl.height_eq, hr.height_eq, le_abs]
  split
  · split
    · obtain ⟨t, ht, havl, hin, hge, hle⟩ :=
        rebalanceHeavy_ok (d := .right) (a := a) hl hr (by omega)
      exact ⟨t, ht, ⟨havl, hin, by omega, by omega⟩, by omega⟩
    · rw [if_pos (by omega)]
      obtain ⟨t, ht, havl, hin, hge, hle⟩ :=
        rebalanceHeavy_ok (d := .left) (a := a) hr hl (by omega)
      exact ⟨t, ht, ⟨havl, hin, by omega, by omega⟩, by omega⟩
  · have hdepth := depth_mk .right l a r
    exact ⟨_, rfl, ⟨.mk hl hr (by omega) (by omega), rfl, by omega, by omega⟩, fun _ _ => hdepth⟩

end BinTree

-- ------------------------------
-- Contexts
-- ------------------------------

structure Frame (α : Type) where
  side : Dir
  a : α
  ht : Int
  sibling : BinTree α

namespace Frame

open BinTree

variable {α : Type}

def fill (f : Frame α) (t : BinTree α) : BinTree α := build f.side f.sibling f.a f.ht t

def before (f : Frame α) : List α := f.side.pick [] (f.sibling.inorder ++ [f.a])

def after (f : Frame α) : List α := f.side.pick (f.a :: f.sibling.inorder) []

def rebalance (f : Frame α) (t : BinTree α) : Option (BinTree α) :=
  BinTree.rebalance (f.side.pick t f.sibling) f.a (f.side.pick f.sibling t)

theorem inorder_fill (f : Frame α) (t : BinTree α) :
    (f.fill t).inorder = f.before ++ t.inorder ++ f.after := by
  obtain ⟨side, a, ht, s⟩ := f
  cases side <;> simp [fill, before, after, inorderOn, Dir.pick]

/-- Rebalancing over a subtree that is at most one deeper than the one the frame
was balanced for. -/
theorem rebalance_ok {f : Frame α} {t : BinTree α} {k : Int} (ht : t.Avl) (hs : f.sibling.Avl)
    (h₁ : k - f.sibling.depth ≤ 1) (h₂ : f.sibling.depth - k ≤ 1)
    (hk : k ≤ t.depth) (hk' : t.depth ≤ k + 1) :
    ∃ t', f.rebalance t = some t' ∧ t'.Avl ∧ t'.inorder = f.before ++ t.inorder ++ f.after ∧
      max k f.sibling.depth + 1 ≤ t'.depth ∧ t'.depth ≤ max k f.sibling.depth + 1 + 1 := by
  obtain ⟨side, a, hf, s⟩ := f
  cases side with
  | left =>
    obtain ⟨t', hreb, hj, hflat⟩ := BinTree.rebalance_ok (a := a) ht hs (by omega) (by omega)
    have hge := hj.depth_ge
    have hle := hj.depth_le
    exact ⟨t', hreb, hj.avl, by simpa [before, after, Dir.pick] using hj.inorder, by omega,
      by omega⟩
  | right =>
    obtain ⟨t', hreb, hj, hflat⟩ := BinTree.rebalance_ok (a := a) hs ht (by omega) (by omega)
    have hge := hj.depth_ge
    have hle := hj.depth_le
    exact ⟨t', hreb, hj.avl, by simpa [before, after, Dir.pick] using hj.inorder, by omega,
      by omega⟩

end Frame

abbrev Path (α : Type) := List (Frame α)

namespace Path

open BinTree

variable {α : Type}

def plug : Path α → BinTree α → BinTree α
  | [], t => t
  | f :: fs, t => plug fs (f.fill t)

def before : Path α → List α
  | [] => []
  | f :: fs => before fs ++ f.before

def after : Path α → List α
  | [] => []
  | f :: fs => f.after ++ after fs

/-- The tree around the hole is balanced for a subtree of depth `k`. -/
def Balanced : Path α → Int → Prop
  | [], _ => True
  | f :: fs, k =>
    f.sibling.Avl ∧ f.ht = max f.sibling.depth k + 1 ∧ f.sibling.depth - k ≤ 1 ∧
      k - f.sibling.depth ≤ 1 ∧ Balanced fs f.ht

def rebalance : Path α → BinTree α → Option (BinTree α)
  | [], t => some t
  | f :: fs, t => (f.rebalance t).bind (rebalance fs)

theorem plug_nil (t : BinTree α) : plug [] t = t := rfl

theorem plug_cons (f : Frame α) (fs : Path α) (t : BinTree α) :
    plug (f :: fs) t = plug fs (f.fill t) := rfl

theorem inorder_plug (fs : Path α) (t : BinTree α) :
    (plug fs t).inorder = before fs ++ t.inorder ++ after fs := by
  induction fs generalizing t with
  | nil => simp [plug, before, after]
  | cons f fs ih => simp [plug, before, after, ih, Frame.inorder_fill]

theorem avl_plug {fs : Path α} {t : BinTree α} :
    (plug fs t).Avl ↔ t.Avl ∧ Balanced fs t.depth := by
  induction fs generalizing t with
  | nil => simp [plug, Balanced]
  | cons f fs ih =>
    rw [plug, ih, Frame.fill, avl_build, Balanced, depth_build]
    constructor
    · rintro ⟨⟨hs, ht, hh, h₁, h₂⟩, hfs⟩
      exact ⟨ht, hs, hh, h₁, h₂, hh ▸ hfs⟩
    · rintro ⟨ht, hs, hh, h₁, h₂, hfs⟩
      exact ⟨⟨hs, ht, hh, h₁, h₂⟩, hh ▸ hfs⟩

/-- A path balanced for depth `k` takes a balanced subtree of depth `k` or
`k + 1`. The induction is on the path, from the subtree upwards. -/
theorem rebalance_ok {fs : Path α} {t : BinTree α} {k : Int} (ht : t.Avl) (hfs : Balanced fs k)
    (hk : k ≤ t.depth) (hk' : t.depth ≤ k + 1) :
    ∃ t', rebalance fs t = some t' ∧ t'.Avl ∧
      t'.inorder = before fs ++ t.inorder ++ after fs := by
  induction fs generalizing t k with
  | nil => exact ⟨t, rfl, ht, by simp [before, after]⟩
  | cons f fs ih =>
    obtain ⟨hs, hh, h₁, h₂, hup⟩ := hfs
    obtain ⟨u, hu, huavl, huin, hge, hle⟩ := f.rebalance_ok ht hs h₂ h₁ hk hk'
    obtain ⟨t', ht', havl, hin⟩ := ih huavl hup (by omega) (by omega)
    exact ⟨t', by simp [rebalance, hu, ht'], havl, by simp [hin, huin, before, after]⟩

end Path

end Lib
