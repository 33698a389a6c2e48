import Mathlib.Data.Fintype.Card
import Mathlib.Data.Finset.Card
import Mathlib.Algebra.BigOperators.Group.Finset.Piecewise
import Mathlib.Algebra.Order.BigOperators.Group.Finset

/-!
# Labelled transition systems

A system is its initial states and a partial successor function on labels;
a state is reachable by a finite run of enabled labels. An invariant is
proved once for the initial states and once for a step. `restrict` keeps
only the steps that meet a condition on the state they leave, so a claim
about the runs whose steps all meet the condition is a claim about the
restricted system. `cost` adds up what the steps of a run cost, and is bounded
by a budget that every step pays from.

The second half counts the true entries of a finite Boolean table, which is
how a conserved token is stated, and adds up weights over them.
-/

namespace Lib

structure System (S A : Type) where
  init : S → Prop
  next : S → A → Option S

namespace System

variable {S A : Type} {M : System S A}

inductive Reachable (M : System S A) : S → Prop
  | init : M.init s → Reachable M s
  | step : Reachable M s → M.next s a = some t → Reachable M t

/-- The run of a list of labels, `none` as soon as one is not enabled. -/
def run (M : System S A) : S → List A → Option S
  | s, [] => some s
  | s, a :: as => (M.next s a).bind (M.run · as)

theorem run_append (M : System S A) (s : S) (as bs : List A) :
    M.run s (as ++ bs) = (M.run s as).bind (M.run · bs) := by
  induction as generalizing s with
  | nil => rfl
  | cons a as ih =>
    simp only [List.cons_append, run]
    cases M.next s a with
    | none => rfl
    | some t => exact ih t

theorem Reachable.run (h : Reachable M s) (hr : M.run s as = some t) : Reachable M t := by
  induction as generalizing s with
  | nil => cases hr; exact h
  | cons a as ih =>
    simp only [System.run, Option.bind_eq_some_iff] at hr
    obtain ⟨u, hu, hr⟩ := hr
    exact ih (.step h hu) hr

/-- What holds initially and is kept by every step from a reachable state
holds in every reachable state. -/
theorem Reachable.invariant {I : S → Prop} (hr : Reachable M s) (h0 : ∀ s, M.init s → I s)
    (hs : ∀ s a t, Reachable M s → I s → M.next s a = some t → I t) : I s := by
  induction hr with
  | init hi => exact h0 _ hi
  | step h hn ih => exact hs _ _ _ h ih hn

def cost (M : System S A) (c : S → S → Nat) : S → List A → Nat
  | _, [] => 0
  | s, a :: as =>
    match M.next s a with
    | some t => c s t + M.cost c t as
    | none => 0

theorem cost_one (hr : M.run s as = some t) : M.cost (fun _ _ => 1) s as = as.length := by
  induction as generalizing s with
  | nil => rfl
  | cons a as ih =>
    simp only [run, Option.bind_eq_some_iff] at hr
    obtain ⟨u, hu, hr⟩ := hr
    simp only [cost, hu, ih hr, List.length_cons]
    omega

/-- A run costs no more than the budget it starts with, if each of its steps pays
from the budget. -/
theorem cost_le {c : S → S → Nat} (Budget : S → Nat → Prop) (ok : A → Prop)
    (hstep : ∀ s n a t, Budget s n → ok a → M.next s a = some t →
      c s t ≤ n ∧ Budget t (n - c s t))
    (hs : Budget s n) (hok : ∀ a ∈ as, ok a) : M.cost c s as ≤ n := by
  induction as generalizing s n with
  | nil => exact Nat.zero_le n
  | cons a as ih =>
    rw [cost]
    cases hn : M.next s a with
    | none => exact Nat.zero_le n
    | some t =>
      obtain ⟨hle, ht⟩ := hstep s n a t hs (hok a List.mem_cons_self) hn
      have := ih ht fun a' ha' => hok a' (List.mem_cons_of_mem a ha')
      simp only
      omega

open Classical in
/-- The runs whose steps all meet a condition on the state they leave. -/
noncomputable def restrict (M : System S A) (ok : S → A → Prop) : System S A where
  init := M.init
  next s a := if ok s a then M.next s a else none

theorem restrict_next {ok : S → A → Prop} :
    (M.restrict ok).next s a = some t ↔ ok s a ∧ M.next s a = some t := by
  unfold restrict
  by_cases h : ok s a <;> simp [h]

theorem Reachable.of_restrict {ok : S → A → Prop} (h : Reachable (M.restrict ok) s) :
    Reachable M s := by
  induction h with
  | init hi => exact .init hi
  | step _ hn ih => exact .step ih (restrict_next.mp hn).2

theorem Reachable.restrict_mono {ok ok' : S → A → Prop} (himp : ∀ s a, ok s a → ok' s a)
    (h : Reachable (M.restrict ok) s) : Reachable (M.restrict ok') s := by
  induction h with
  | init hi => exact .init hi
  | step _ hn ih =>
    obtain ⟨hok, hn⟩ := restrict_next.mp hn
    exact .step ih (restrict_next.mpr ⟨himp _ _ hok, hn⟩)

def runOk (M : System S A) (ok : S → A → Prop) [∀ s a, Decidable (ok s a)] :
    S → List A → Option S
  | s, [] => some s
  | s, a :: as => if ok s a then (M.next s a).bind (M.runOk ok · as) else none

theorem Reachable.runOk {ok : S → A → Prop} [∀ s a, Decidable (ok s a)]
    (h : Reachable (M.restrict ok) s) (as : List A) (hr : M.runOk ok s as = some t) :
    Reachable (M.restrict ok) t := by
  induction as generalizing s with
  | nil => cases hr; exact h
  | cons a as ih =>
    simp only [System.runOk] at hr
    split at hr
    · rename_i hok
      obtain ⟨u, hu, hr⟩ := Option.bind_eq_some_iff.mp hr
      exact ih (.step h (restrict_next.mpr ⟨hok, hu⟩)) hr
    · cases hr

end System

-- ------------------------------
-- Counting
-- ------------------------------

def count {ι : Type} [Fintype ι] (f : ι → Bool) : Nat := (Finset.univ.filter (f · = true)).card

section
variable {ι : Type} [Fintype ι] {f : ι → Bool}

theorem count_eq_sum (f : ι → Bool) : count f = ∑ i, (f i).toNat := by
  unfold count
  rw [Finset.card_filter]
  refine Finset.sum_congr rfl fun i _ => ?_
  cases f i <;> rfl

theorem count_update [DecidableEq ι] (f : ι → Bool) (i : ι) (b : Bool) :
    count (Function.update f i b) + (f i).toNat = count f + b.toNat := by
  simp only [count_eq_sum]
  rw [← Finset.add_sum_erase _ _ (Finset.mem_univ i),
    ← Finset.add_sum_erase Finset.univ (fun j => (f j).toNat) (Finset.mem_univ i)]
  have h : ∑ j ∈ Finset.univ.erase i, (Function.update f i b j).toNat =
      ∑ j ∈ Finset.univ.erase i, (f j).toNat :=
    Finset.sum_congr rfl fun j hj => by simp [Finset.ne_of_mem_erase hj]
  simp only [h, Function.update_self]
  omega

theorem count_pos (h : f i = true) : 0 < count f :=
  Finset.card_pos.mpr ⟨i, by simpa using h⟩

theorem count_eq_zero : count f = 0 ↔ ∀ i, f i = false := by
  simp [count, Finset.filter_eq_empty_iff]

theorem eq_of_count_le_one (h : count f ≤ 1) (hi : f i = true) (hj : f j = true) : i = j :=
  Finset.card_le_one.mp h i (by simpa using hi) j (by simpa using hj)

def weight (w : ι → Int) (f : ι → Bool) : Int := ∑ i, if f i then w i else 0

theorem weight_update [DecidableEq ι] (w : ι → Int) (f : ι → Bool) (i : ι) (b : Bool) :
    weight w (Function.update f i b) + (if f i then w i else 0) =
      weight w f + if b then w i else 0 := by
  unfold weight
  rw [← Finset.add_sum_erase _ _ (Finset.mem_univ i),
    ← Finset.add_sum_erase Finset.univ (fun j => if f j then w j else 0) (Finset.mem_univ i)]
  have h : ∑ j ∈ Finset.univ.erase i, (if Function.update f i b j then w j else 0) =
      ∑ j ∈ Finset.univ.erase i, if f j then w j else 0 :=
    Finset.sum_congr rfl fun j hj => by simp [Finset.ne_of_mem_erase hj]
  simp only [h, Function.update_self]
  omega

section
variable {w : ι → Int} (hw : ∀ i, 0 < w i)
include hw

theorem weight_le (f : ι → Bool) : weight w f ≤ ∑ i, w i :=
  Finset.sum_le_sum fun i _ => by
    have := (hw i).le
    split <;> omega

theorem le_weight (h : f i = true) : w i ≤ weight w f := by
  have hnonneg : ∀ j ∈ Finset.univ, 0 ≤ if f j then w j else 0 := fun j _ => by
    have := (hw j).le
    split <;> omega
  have hle := Finset.single_le_sum hnonneg (Finset.mem_univ i)
  rwa [if_pos h] at hle

theorem eq_of_weight_le (h : f i = true) (hle : weight w f ≤ w i) (hj : f j = true) : j = i := by
  classical
  by_contra hne
  have hrest := weight_update w f i false
  have hj' : Function.update f i false j = true := by simpa [hne] using hj
  have hge := le_weight hw hj'
  have hpos := hw j
  simp only [h, if_true, Bool.false_eq_true, if_false] at hrest
  omega

end

end

end Lib
