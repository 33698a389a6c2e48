import ArmciMpi.ConflictTree.Invariant
import Mathlib.Data.Set.Insert

/-!
# Searching the conflict tree

`ctree_locate` and `ctree_insert` follow one path from the root. In a tree of
disjoint ranges that is enough: `conflict_exact` says that after any sequence of
insertions both find a conflict exactly if some stored range meets the new one,
that a failed insertion changes nothing, and that a successful one adds its range
and nothing else.
-/

namespace ArmciMpi.ConflictTree

open Lib (Dir BinTree)

-- ------------------------------
-- What a tree stores
-- ------------------------------

inductive CTree.Has (s : CTree) : Nat → Node → Prop
  | root : s.root = some p → s.heap.cell p = some n → Has s p n
  | child : Has s p n → n.child d = some q → s.heap.cell q = some m → Has s q m

def CTree.stored (s : CTree) : Set (Int × Int) := {b | ∃ p n, s.Has p n ∧ b = (n.lo, n.hi)}

section
variable {s : CTree} {h : Heap} {up : Ptr} {t u : BinTree Cell}

theorem CTree.Has.cell (hp : s.Has p n) : s.heap.cell p = some n := by
  cases hp <;> assumption

theorem CTree.Has.subtree (hr : Rep s.heap up u)
    (hroot : ∀ p n, rootPtr u = some p → s.heap.cell p = some n → s.Has p n) (hp : p ∈ ptrs u)
    (hn : s.heap.cell p = some n) : s.Has p n := by
  induction u generalizing up with
  | leaf => cases hp
  | node l a ht r ihl ihr =>
    obtain ⟨ha, hl, hr⟩ := hr
    have htop := hroot a.ptr _ rfl ha
    simp only [ptrs, BinTree.inorder_node, List.map_append, List.map_cons, List.mem_append,
      List.mem_cons] at hp
    rcases hp with hp | rfl | hp
    · exact ihl hl (fun q m hq hm => .child (d := .left) htop hq hm) hp
    · exact hroot _ n rfl hn
    · exact ihr hr (fun q m hq hm => .child (d := .right) htop hq hm) hp

theorem WellFormed.has_iff (hw : WellFormed s t) : s.Has p n ↔ s.heap.cell p = some n := by
  refine ⟨CTree.Has.cell, fun hn => .subtree hw.rep (fun q m hq hm => ?_) ?_ hn⟩
  · exact .root (hw.root.trans hq) hm
  · exact (hw.live p).mp (by simp [hn])

theorem Rep.cell_bounds (hr : Rep h up t) {x : Cell} (hx : x ∈ t.inorder) :
    ∃ n, h.cell x.ptr = some n ∧ n.lo = x.lo ∧ n.hi = x.hi := by
  induction t generalizing up with
  | leaf => cases hx
  | node l a ht r ihl ihr =>
    obtain ⟨ha, hl, hr⟩ := hr
    simp only [BinTree.inorder_node, List.mem_append, List.mem_cons] at hx
    rcases hx with hx | rfl | hx
    · exact ihl hl hx
    · exact ⟨_, ha, rfl, rfl⟩
    · exact ihr hr hx

theorem WellFormed.mem_stored (hw : WellFormed s t) {b : Int × Int} :
    b ∈ s.stored ↔ ∃ x ∈ t.inorder, b = (x.lo, x.hi) := by
  constructor
  · rintro ⟨p, n, hp, rfl⟩
    have hn := hw.has_iff.mp hp
    obtain ⟨x, hx, rfl⟩ := List.mem_map.mp ((hw.live p).mp (by simp [hn]))
    obtain ⟨m, hm, hlo, hhi⟩ := hw.rep.cell_bounds hx
    cases hm.symm.trans hn
    exact ⟨x, hx, by rw [hlo, hhi]⟩
  · rintro ⟨x, hx, rfl⟩
    obtain ⟨n, hn, hlo, hhi⟩ := hw.rep.cell_bounds hx
    exact ⟨x.ptr, n, hw.has_iff.mpr hn, by rw [hlo, hhi]⟩

end

-- ------------------------------
-- Locating
-- ------------------------------

section
variable {h : Heap} {up : Ptr} {t : BinTree Cell} {lo hi : Int} {fuel : Nat}

theorem ctreeLocate_here (hn : h.cell p = some n) (hc : n.Conflicts lo hi) :
    ctreeLocate (fuel + 1) h (some p) lo hi = .ok (some p) := by
  rw [ctreeLocate, Heap.get_ok hn, ok_bind, if_pos hc]
  rfl

theorem ctreeLocate_down (hn : h.cell p = some n) (hc : ¬ n.Conflicts lo hi) (fuel : Nat) :
    ctreeLocate (fuel + 1) h (some p) lo hi =
      ctreeLocate fuel h (if lo < n.lo then n.left else n.right) lo hi := by
  rw [ctreeLocate, Heap.get_ok hn, ok_bind, if_neg hc]
  split <;> rfl

/-- The search ends at a node whose range meets the given one, or there is none. The
induction is on the subtree the search has reached. -/
theorem ctreeLocate_ok (hr : Rep h up t) (hord : Ordered t.inorder) (hle : lo ≤ hi)
    (hfuel : (ptrs t).length ≤ fuel) :
    (∃ x ∈ t.inorder, x.Meets lo hi ∧
        ctreeLocate fuel h (rootPtr t) lo hi = .ok (some x.ptr)) ∨
      (∀ x ∈ t.inorder, ¬ x.Meets lo hi) ∧ ctreeLocate fuel h (rootPtr t) lo hi = .ok none := by
  induction t generalizing up fuel with
  | leaf => exact .inr ⟨fun x hx => (List.not_mem_nil hx).elim, by cases fuel <;> rfl⟩
  | node l a ht r ihl ihr =>
    obtain ⟨hA, hl, hr⟩ := hr
    obtain ⟨hne, hpw⟩ := hord
    simp only [BinTree.inorder_node, List.mem_append, List.mem_cons] at hne
    obtain ⟨hpl, hpr, hcross⟩ := List.pairwise_append.mp hpw
    obtain ⟨har, hpr⟩ := List.pairwise_cons.mp hpr
    have ha := hne a (.inr (.inl rfl))
    have hlen : (ptrs l).length + (ptrs r).length + 1 ≤ fuel := by
      simpa [ptrs, Nat.add_assoc] using hfuel
    obtain ⟨fuel, rfl⟩ : ∃ k, fuel = k + 1 := ⟨fuel - 1, by omega⟩
    have hconf := conflicts_iff (n := ⟨a.lo, a.hi, ht, up, rootPtr l, rootPtr r⟩) ha hle
    by_cases hmeet : a.Meets lo hi
    · exact .inl ⟨a, by simp, hmeet, ctreeLocate_here hA (hconf.mpr hmeet)⟩
    have hdown := ctreeLocate_down hA (fun hc => hmeet (hconf.mp hc)) fuel
    have hfl : (ptrs l).length ≤ fuel := by omega
    have hfr : (ptrs r).length ≤ fuel := by omega
    unfold Cell.Meets at hmeet
    simp only [BinTree.inorder_node, List.mem_append, List.mem_cons]
    rw [rootPtr, hdown]
    split
    · -- all to the right lies above the range
      rename_i hlt
      obtain ⟨x, hx, hm, he⟩ | ⟨hnone, he⟩ :=
        ihl hl ⟨fun x hx => hne x (.inl hx), hpl⟩ hfl
      · exact .inl ⟨x, .inl hx, hm, he⟩
      · refine .inr ⟨?_, he⟩
        rintro x (hx | rfl | hx)
        · exact hnone x hx
        · exact fun hm => hmeet hm
        · rintro ⟨-, hm⟩
          have := har x hx
          dsimp only at hlt
          omega
    · rename_i hge
      obtain ⟨x, hx, hm, he⟩ | ⟨hnone, he⟩ :=
        ihr hr ⟨fun x hx => hne x (.inr (.inr hx)), hpr⟩ hfr
      · exact .inl ⟨x, .inr (.inr hx), hm, he⟩
      · refine .inr ⟨?_, he⟩
        rintro x (hx | rfl | hx)
        · rintro ⟨hm, -⟩
          have := hcross x hx a List.mem_cons_self
          dsimp only at hge
          omega
        · exact fun hm => hmeet hm
        · exact hnone x hx

end

theorem WellFormed.locate {s : CTree} {t : BinTree Cell} (hw : WellFormed s t) {lo hi : Int}
    (hle : lo ≤ hi) :
    (∃ x ∈ t.inorder, x.Meets lo hi ∧
        ctreeLocate s.heap.next s.heap s.root lo hi = .ok (some x.ptr)) ∨
      (∀ x ∈ t.inorder, ¬ x.Meets lo hi) ∧
        ctreeLocate s.heap.next s.heap s.root lo hi = .ok none := by
  rw [hw.root]
  exact ctreeLocate_ok hw.rep hw.ordered hle hw.room

-- ------------------------------
-- Exactness
-- ------------------------------

/-- After any sequence of insertions: an insertion fails exactly if a stored range meets
its own, which is when the search finds a node, one that meets it. If it fails all nodes
stay as they are, otherwise its range is added to the stored ones. -/
theorem conflict_exact (rs : List Range) (r : Range) :
    ∃ s accepted s' conflict found, insertAll ctreeEmpty rs = .ok (s, accepted) ∧
      ctreeInsert s r.lo r.hi = .ok (s', conflict) ∧
      ctreeLocate s.heap.next s.heap s.root r.lo r.hi = .ok found ∧
      (conflict = true ↔ ∃ b ∈ s.stored, r.lo ≤ b.2 ∧ b.1 ≤ r.hi) ∧
      (conflict = true ↔ found ≠ none) ∧
      (∀ p, found = some p → ∃ n, s.Has p n ∧ r.lo ≤ n.hi ∧ n.lo ≤ r.hi) ∧
      (conflict = true → s'.root = s.root ∧ s'.heap.cell = s.heap.cell) ∧
      (conflict = false → s'.stored = insert (r.lo, r.hi) s.stored) := by
  obtain ⟨s, t, accepted, hrun, hw, -⟩ := insertAll_ok wellFormed_empty rs
  have hstored : (∃ b ∈ s.stored, r.lo ≤ b.2 ∧ b.1 ≤ r.hi) ↔
      ∃ x ∈ t.inorder, x.Meets r.lo r.hi := by
    constructor
    · rintro ⟨b, hb, hmeet⟩
      obtain ⟨x, hx, rfl⟩ := hw.mem_stored.mp hb
      exact ⟨x, hx, hmeet⟩
    · rintro ⟨x, hx, hmeet⟩
      exact ⟨_, hw.mem_stored.mpr ⟨x, hx, rfl⟩, hmeet⟩
  obtain ⟨hmeet, s', hins, -, hroot, hcell⟩ |
    ⟨hnone, s', t', pre, post, c, hins, hw', hlo, hhi, ht, ht'⟩ := ctreeInsert_ok hw r.le
  · obtain ⟨x, hx, hm, hloc⟩ | ⟨hnone, -⟩ := hw.locate r.le
    · obtain ⟨n, hn, hlo, hhi⟩ := hw.rep.cell_bounds hx
      refine ⟨s, accepted, s', true, some x.ptr, hrun, hins, hloc, by simpa using hstored.mpr hmeet,
        by simp, ?_, fun _ => ⟨hroot, hcell⟩, by simp⟩
      rintro _ ⟨⟩
      exact ⟨n, hw.has_iff.mpr hn, by rw [hlo, hhi]; exact hm⟩
    · obtain ⟨x, hx, hm⟩ := hmeet
      exact absurd hm (hnone x hx)
  · obtain ⟨x, hx, hm, -⟩ | ⟨-, hloc⟩ := hw.locate r.le
    · exact absurd hm (hnone x hx)
    · refine ⟨s, accepted, s', false, none, hrun, hins, hloc, ?_, by simp, by simp, by simp,
        fun _ => ?_⟩
      · rw [hstored]
        simpa using hnone
      · ext b
        rw [Set.mem_insert_iff, hw'.mem_stored, hw.mem_stored, ht', ht]
        simp only [List.mem_append, List.mem_cons, ← hlo, ← hhi]
        constructor
        · rintro ⟨x, hx | rfl | hx, rfl⟩
          · exact .inr ⟨x, .inl hx, rfl⟩
          · exact .inl rfl
          · exact .inr ⟨x, .inr hx, rfl⟩
        · rintro (rfl | ⟨x, hx | hx, rfl⟩)
          · exact ⟨c, .inr (.inl rfl), rfl⟩
          · exact ⟨x, .inl hx, rfl⟩
          · exact ⟨x, .inr (.inr hx), rfl⟩

end ArmciMpi.ConflictTree
