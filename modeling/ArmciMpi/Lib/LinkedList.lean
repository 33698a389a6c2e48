import Mathlib.Data.List.Nodup
import Mathlib.Logic.Function.Basic

/-!
# Doubly linked lists

Cells by address, each with a value and the addresses of its two neighbours.
`Linked cells head xs` says that from `head` the cells form the list `xs` of
addresses and values: every cell points to its predecessor and its successor
in `xs`. The rules say what appending a cell, unlinking one and walking along
the `next` pointers do to `xs`.
-/

namespace Lib

variable {α : Type}

structure Cell (α : Type) where
  val : α
  prev : Option Nat
  next : Option Nat

def lastAddr (xs : List (Nat × α)) : Option Nat := xs.getLast?.map Prod.fst

def headAddr (xs : List (Nat × α)) : Option Nat := xs.head?.map Prod.fst

@[simp] theorem headAddr_nil : headAddr ([] : List (Nat × α)) = none := rfl

@[simp] theorem headAddr_cons (x : Nat × α) (xs : List (Nat × α)) :
    headAddr (x :: xs) = some x.1 := rfl

@[simp] theorem lastAddr_nil : lastAddr ([] : List (Nat × α)) = none := rfl

@[simp] theorem lastAddr_snoc (xs : List (Nat × α)) (x : Nat × α) :
    lastAddr (xs ++ [x]) = some x.1 := by simp [lastAddr]

theorem lastAddr_append (xs : List (Nat × α)) (y : Nat × α) (ys : List (Nat × α)) :
    lastAddr (xs ++ y :: ys) = lastAddr (y :: ys) := by
  simp only [lastAddr, List.getLast?_append, List.getLast?_cons, Option.some_or]

theorem lastAddr_cons_cons (x y : Nat × α) (ys : List (Nat × α)) :
    lastAddr (x :: y :: ys) = lastAddr (y :: ys) := lastAddr_append [x] y ys

theorem mem_of_lastAddr {xs : List (Nat × α)} (h : lastAddr xs = some a) :
    a ∈ xs.map Prod.fst := by
  obtain ⟨x, hx, rfl⟩ := Option.map_eq_some_iff.mp h
  exact List.mem_map_of_mem (List.mem_of_getLast? hx)

theorem mem_of_headAddr {xs : List (Nat × α)} (h : headAddr xs = some a) :
    a ∈ xs.map Prod.fst := by
  obtain ⟨x, hx, rfl⟩ := Option.map_eq_some_iff.mp h
  exact List.mem_map_of_mem (List.mem_of_head? hx)

theorem lastAddr_ne {l m : List (Nat × α)} (hnd : ((l ++ (b, w) :: y :: m).map Prod.fst).Nodup) :
    lastAddr (l ++ (b, w) :: y :: m) ≠ some b := by
  rw [lastAddr_append, lastAddr_cons_cons]
  intro h
  simp only [List.map_append, List.map_cons, List.nodup_append, List.nodup_cons] at hnd
  exact hnd.2.1.1 (by simpa using mem_of_lastAddr h)

/-- From `head` the cells are linked into the list `xs`. -/
structure Linked (cells : Nat → Option (Cell α)) (head : Option Nat) (xs : List (Nat × α)) :
    Prop where
  nodup : (xs.map Prod.fst).Nodup
  head : head = headAddr xs
  links : ∀ l a v r, xs = l ++ (a, v) :: r → cells a = some ⟨v, lastAddr l, headAddr r⟩

namespace Linked

variable {cells : Nat → Option (Cell α)} {head : Option Nat} {xs : List (Nat × α)}

theorem empty : Linked (fun _ => none) none ([] : List (Nat × α)) :=
  ⟨List.nodup_nil, rfl, by simp⟩

theorem get (h : Linked cells head xs) (hx : (a, v) ∈ xs) :
    ∃ p n, cells a = some ⟨v, p, n⟩ := by
  obtain ⟨l, r, rfl⟩ := List.append_of_mem hx
  exact ⟨_, _, h.links l a v r rfl⟩

theorem congr {cells' : Nat → Option (Cell α)} (h : Linked cells head xs)
    (heq : ∀ a ∈ xs.map Prod.fst, cells' a = cells a) : Linked cells' head xs := by
  refine ⟨h.nodup, h.head, ?_⟩
  rintro l a v r rfl
  rw [heq a (by simp)]
  exact h.links l a v r rfl

theorem first (v : α) (cells : Nat → Option (Cell α)) (a : Nat) :
    Linked (Function.update cells a (some ⟨v, none, none⟩)) (some a) [(a, v)] := by
  refine ⟨by simp, rfl, ?_⟩
  rintro l b w r h
  obtain ⟨rfl, h⟩ | ⟨l', rfl, h⟩ := List.append_eq_cons_iff.mp h.symm
  · cases h
    simp
  · simp at h

theorem append (h : Linked cells head xs) (ha : a ∉ xs.map Prod.fst)
    (ht : lastAddr xs = some t) (hc : cells t = some c) (v : α) :
    Linked (Function.update (Function.update cells t (some { c with next := some a })) a
      (some ⟨v, some t, none⟩)) head (xs ++ [(a, v)]) := by
  have hne : t ≠ a := fun heq => ha (heq ▸ mem_of_lastAddr ht)
  refine ⟨?_, ?_, ?_⟩
  · rw [List.map_append, List.nodup_append_comm]
    simpa using ⟨by simpa using ha, h.nodup⟩
  · rw [h.head]
    cases xs with
    | nil => cases ht
    | cons x xs => rfl
  · intro l b w r heq
    rcases List.append_eq_append_iff.mp heq with ⟨m, rfl, hm⟩ | ⟨m, rfl, hm⟩
    · -- the new cell
      cases m with
      | nil =>
        cases hm
        simp [ht]
      | cons y m => simp at hm
    · cases m with
      | nil =>
        cases hm
        simp at ht
        simp [ht]
      | cons y m =>
        -- an old cell; only the last one changes
        obtain ⟨rfl, rfl⟩ : (b, w) = y ∧ r = m ++ [(a, v)] := by simpa using hm
        have hb := h.links l b w m rfl
        have hba : b ≠ a := by rintro rfl; exact ha (by simp)
        rw [Function.update_of_ne hba]
        cases m with
        | nil =>
          obtain rfl : b = t := by simpa using ht
          rw [hb] at hc
          cases hc
          simp
        | cons y m =>
          have hbt : b ≠ t := by rintro rfl; exact lastAddr_ne h.nodup ht
          rw [Function.update_of_ne hbt, hb]
          rfl

end Linked

-- ------------------------------
-- Unlinking
-- ------------------------------

/-- `p->next = n`, unless `p` is null. -/
def setNext (cells : Nat → Option (Cell α)) (p n : Option Nat) : Nat → Option (Cell α) :=
  fun a => if p = some a then (cells a).map fun c => { c with next := n } else cells a

/-- `n->prev = p`, unless `n` is null. -/
def setPrev (cells : Nat → Option (Cell α)) (n p : Option Nat) : Nat → Option (Cell α) :=
  fun a => if n = some a then (cells a).map fun c => { c with prev := p } else cells a

theorem setNext_none (cells : Nat → Option (Cell α)) (n : Option Nat) :
    setNext cells none n = cells := by
  funext a
  simp [setNext]

theorem setPrev_none (cells : Nat → Option (Cell α)) (p : Option Nat) :
    setPrev cells none p = cells := by
  funext a
  simp [setPrev]

theorem setNext_some {cells : Nat → Option (Cell α)} (hc : cells a = some c) (n : Option Nat) :
    setNext cells (some a) n = Function.update cells a (some { c with next := n }) := by
  funext b
  by_cases hb : b = a
  · subst hb
    simp [setNext, hc]
  · simp [setNext, Ne.symm hb, hb]

theorem setPrev_some {cells : Nat → Option (Cell α)} (hc : cells a = some c) (p : Option Nat) :
    setPrev cells (some a) p = Function.update cells a (some { c with prev := p }) := by
  funext b
  by_cases hb : b = a
  · subst hb
    simp [setPrev, hc]
  · simp [setPrev, Ne.symm hb, hb]

theorem exists_setNext {cells : Nat → Option (Cell α)} (hc : cells a = some c)
    (p n : Option Nat) : ∃ c', setNext cells p n a = some c' := by
  unfold setNext
  split <;> simp [hc]

def bypass (cells : Nat → Option (Cell α)) (a : Nat) (p n : Option Nat) :
    Nat → Option (Cell α) :=
  Function.update (setPrev (setNext cells p n) n p) a none

theorem Linked.bypass {cells : Nat → Option (Cell α)} {hd : Option Nat} {l r : List (Nat × α)}
    (h : Linked cells hd (l ++ (a, v) :: r)) :
    Linked (bypass cells a (lastAddr l) (headAddr r)) (headAddr (l ++ r)) (l ++ r) := by
  have hnd := h.nodup
  simp only [List.map_append, List.map_cons, List.nodup_append, List.nodup_cons,
    List.mem_cons, forall_eq_or_imp] at hnd
  obtain ⟨hl, ⟨har, hr⟩, hlr⟩ := hnd
  -- a cell behind the one that goes: only the first of them has a new predecessor
  have hbehind : ∀ m b w r', r = m ++ (b, w) :: r' →
      Lib.bypass cells a (lastAddr l) (headAddr r) b = some ⟨w, lastAddr (l ++ m), headAddr r'⟩ := by
    rintro m b w r' rfl
    have hb := h.links (l ++ (a, v) :: m) b w r' (by simp)
    have hba : b ≠ a := by rintro rfl; simp at har
    have hbl : lastAddr l ≠ some b := fun he => (hlr b (mem_of_lastAddr he)).2 b (by simp) rfl
    simp only [Lib.bypass, Function.update_of_ne hba, setPrev, setNext, if_neg hbl, hb]
    cases m with
    | nil => simp
    | cons y m =>
      have hyb : y.1 ≠ b := by rintro rfl; simp at hr
      simp [hyb, lastAddr_append, lastAddr_cons_cons]
  refine ⟨?_, rfl, ?_⟩
  · simp only [List.map_append, List.nodup_append]
    exact ⟨hl, hr, fun x hx y hy => (hlr x hx).2 y hy⟩
  · intro l' b w r' heq
    rcases List.append_eq_append_iff.mp heq with ⟨m, rfl, hm⟩ | ⟨m, rfl, hm⟩
    · exact hbehind m b w r' hm
    · cases m with
      | nil => simpa using hbehind [] b w r' (by simpa using hm.symm)
      | cons y m =>
        -- a cell before it: only the last of them has a new successor
        obtain ⟨rfl, rfl⟩ : (b, w) = y ∧ r' = m ++ r := by simpa using hm
        have hb := h.links l' b w (m ++ (a, v) :: r) (by simp)
        have hba : b ≠ a := (hlr b (by simp)).1
        have hbr : headAddr r ≠ some b := fun he =>
          (hlr b (by simp)).2 b (mem_of_headAddr he) rfl
        simp only [Lib.bypass, Function.update_of_ne hba, setPrev, setNext, if_neg hbr, hb]
        cases m with
        | nil => simp
        | cons y m =>
          simp [lastAddr_ne hl]

/-- The two neighbours of a cell are linked to each other; the cell itself stays. -/
theorem Linked.around {cells : Nat → Option (Cell α)} {hd : Option Nat} {l r : List (Nat × α)}
    (h : Linked cells hd (l ++ (a, v) :: r)) :
    Linked (setPrev (setNext cells (lastAddr l) (headAddr r)) (headAddr r) (lastAddr l))
      (headAddr (l ++ r)) (l ++ r) := by
  refine h.bypass.congr fun b hb => ?_
  have hba : b ≠ a := by
    rintro rfl
    have hnd := h.nodup
    rw [List.map_append, List.map_cons, List.nodup_middle, List.nodup_cons] at hnd
    exact hnd.1 (by simpa using hb)
  rw [Lib.bypass, Function.update_of_ne hba]

end Lib
