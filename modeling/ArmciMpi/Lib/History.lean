import ArmciMpi.Lib.Transition
import Mathlib.Algebra.BigOperators.Group.List.Basic

/-!
# Histories

`traced` adds to a system a list that its steps append to and that no step reads,
so that every run of the system is a run with a history.

A `Register` is a history of operations on one value, each with the value it found:
the one that the operations before it left. If the operations add, every value
found is the first one plus a partial sum; if they replace, every operand but the
last is found exactly by the operation after it.
-/

namespace Lib

namespace System

variable {S A B : Type} {M : System S A} {note : S → A → List B}

def traced (M : System S A) (note : S → A → List B) : System (S × List B) A where
  init s := M.init s.1 ∧ s.2 = []
  next s a := (M.next s.1 a).map fun t => (t, s.2 ++ note s.1 a)

theorem traced_next {s t : S × List B} :
    (M.traced note).next s a = some t ↔ M.next s.1 a = some t.1 ∧ t.2 = s.2 ++ note s.1 a := by
  obtain ⟨t, hist⟩ := t
  simp only [traced, Option.map_eq_some_iff, Prod.mk.injEq]
  constructor
  · rintro ⟨u, hu, rfl, rfl⟩
    exact ⟨hu, rfl⟩
  · rintro ⟨hu, rfl⟩
    exact ⟨t, hu, rfl, rfl⟩

theorem traced_run {s t : S × List B} (h : (M.traced note).run s as = some t) : s.2 <+: t.2 := by
  induction as generalizing s with
  | nil =>
    cases h
    exact List.prefix_refl _
  | cons a as ih =>
    obtain ⟨u, hu, hr⟩ := Option.bind_eq_some_iff.mp h
    exact ((traced_next.mp hu).2 ▸ List.prefix_append _ _).trans (ih hr)

end System

-- ------------------------------
-- Registers
-- ------------------------------

variable {O V W : Type}

/-- From `v` the operations lead to the last value, and each found what the ones
before it left. -/
inductive Register (upd : O → V → V) (v : V) : List (O × V) → V → Prop
  | nil : Register upd v [] v
  | snoc (h : Register upd v hist w) (o : O) : Register upd v (hist ++ [(o, w)]) (upd o w)

namespace Register

variable {upd : O → V → V} {v w : V} {hist : List (O × V)}

theorem map (h : Register upd v hist w) (upd' : O → W → W) (g : V → W)
    (hg : ∀ e ∈ hist, g (upd e.1 e.2) = upd' e.1 (g e.2)) :
    Register upd' (g v) (hist.map fun e => (e.1, g e.2)) (g w) := by
  induction h with
  | nil => exact .nil
  | @snoc hist w h o ih =>
    have hlast := hg (o, w) (by simp)
    simp only at hlast
    rw [List.map_append, hlast]
    exact (ih fun e he => hg e (List.mem_append_left _ he)).snoc o

theorem found_inv {P : V → Prop} (h : Register upd v hist w) (hv : P v)
    (hupd : ∀ e ∈ hist, P e.2 → P (upd e.1 e.2)) : P w ∧ ∀ e ∈ hist, P e.2 := by
  induction h with
  | nil => exact ⟨hv, fun e he => by cases he⟩
  | @snoc hist w h o ih =>
    obtain ⟨hw, hall⟩ := ih fun e he => hupd e (List.mem_append_left _ he)
    refine ⟨hupd (o, w) (by simp) hw, fun e he => ?_⟩
    rcases List.mem_append.mp he with he | he
    · exact hall e he
    · rw [List.mem_singleton.mp he]
      exact hw

theorem at_entry (h : Register upd v hist w) (heq : hist = pre ++ (o, x) :: post) :
    Register upd v pre x := by
  induction h generalizing post with
  | nil => simp at heq
  | @snoc hist w h o' ih =>
    rcases List.eq_nil_or_concat post with rfl | ⟨post, e, rfl⟩
    · obtain ⟨rfl, hlast⟩ := List.append_inj' heq rfl
      cases hlast
      exact h
    · rw [List.concat_eq_append, ← List.cons_append, ← List.append_assoc] at heq
      exact ih (List.append_inj' heq rfl).1

theorem sum_eq [AddMonoid V] {val : O → V} (h : Register (fun o x => x + val o) v hist w) :
    w = v + (hist.map fun e => val e.1).sum := by
  induction h with
  | nil => simp
  | snoc h o ih => rw [ih, List.map_append, List.sum_append, add_assoc]; simp

theorem replace_eq {val : O → V} (h : Register (fun o _ => val o) v hist w) :
    v :: hist.map (fun e => val e.1) = hist.map Prod.snd ++ [w] := by
  induction h with
  | nil => rfl
  | snoc h o ih => simp [← List.cons_append, ih]

end Register

end Lib
