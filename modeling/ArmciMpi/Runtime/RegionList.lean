import ArmciMpi.Lib.LinkedList
import ArmciMpi.Runtime.Gmr

/-!
# The region list

`gmr_list` of one process, a doubly linked list of regions on the heap.
`gmr_create` appends at the tail, `gmr_destroy` unlinks a region and
`gmr_lookup` walks along the list. Every pointer the code follows is looked up,
so a dangling pointer and a failed assertion abort.

`GmrList.Holds` is the invariant: the cells are linked into a list of
addresses and regions. The three operations act on that list as an append, a
removal and a search; `lookup_lookupIn` says that the walk along the pointers
is the lookup in `Env.regions` that the transfer code uses.
-/

namespace ArmciMpi

open Lib

/-- `count` is not in the source; it is the number of regions and bounds the
loops along the list. -/
structure GmrList where
  cells : Nat → Option (Cell Gmr)
  head : Option Nat
  count : Nat

namespace GmrList

def empty : GmrList := ⟨fun _ => none, none, 0⟩

def get (l : GmrList) (a : Nat) : Except String (Cell Gmr) :=
  match l.cells a with
  | some c => .ok c
  | none => .error "dangling pointer"

/-- An assignment to a field of `*a`. -/
def assign (l : GmrList) (a : Nat) (f : Cell Gmr → Cell Gmr) : Except String GmrList := do
  let c ← l.get a
  .ok { l with cells := Function.update l.cells a (some (f c)) }

/-- `while (parent->next != NULL) parent = parent->next`. -/
def tailFrom (l : GmrList) : Nat → Nat → Except String Nat
  | 0, _ => .error "endless list"
  | fuel + 1, parent => do
    let c ← l.get parent
    match c.next with
    | none => .ok parent
    | some a => l.tailFrom fuel a

/-- The end of `gmr_create`; `a` is the address `malloc` gave for the region. -/
def append (l : GmrList) (a : Nat) (mreg : Gmr) : Except String GmrList :=
  match l.head with
  | none => .ok ⟨Function.update l.cells a (some ⟨mreg, none, none⟩), some a, l.count + 1⟩
  | some h => do
    let parent ← l.tailFrom l.count h
    let l' ← l.assign parent fun c => { c with next := some a }
    .ok { l' with cells := Function.update l'.cells a (some ⟨mreg, some parent, none⟩)
                  count := l.count + 1 }

/-- The pointer to `mreg`, at `a`, from its predecessor or from the head. -/
def unlinkPrev (l : GmrList) (a : Nat) (mreg : Cell Gmr) : Except String GmrList :=
  match mreg.prev with
  | none =>
    if l.head = some a then .ok { l with head := mreg.next } else .error "gmr_list == mreg"
  | some p => l.assign p fun c => { c with next := mreg.next }

/-- The pointer to `mreg` from its successor. -/
def unlinkNext (l : GmrList) (mreg : Cell Gmr) : Except String GmrList :=
  match mreg.next with
  | none => .ok l
  | some n => l.assign n fun c => { c with prev := mreg.prev }

/-- The unlinking in `gmr_destroy`, with the `free` at its end. -/
def unlink (l : GmrList) (a : Nat) : Except String GmrList := do
  let mreg ← l.get a
  let l' ← l.unlinkPrev a mreg
  let l' ← l'.unlinkNext mreg
  .ok { l' with cells := Function.update l'.cells a none, count := l.count - 1 }

def lookupFrom (l : GmrList) (ptr : Int) (proc : Nat) : Nat → Option Nat →
    Except String (Option Nat)
  | _, none => .ok none
  | 0, some _ => .error "endless list"
  | fuel + 1, some a => do
    let c ← l.get a
    if ¬ proc < c.val.nslices then .error "proc < mreg->nslices"
    else if (c.val.slice proc).base ≤ ptr ∧
        ptr < (c.val.slice proc).base + (c.val.slice proc).size then .ok (some a)
    else l.lookupFrom ptr proc fuel c.next

/-- `gmr_lookup`, which returns a pointer into the list. -/
def lookup (l : GmrList) (ptr : Int) (proc : Nat) : Except String (Option Nat) :=
  l.lookupFrom ptr proc l.count l.head

-- ------------------------------
-- The invariant
-- ------------------------------

/-- The list holds these regions at these addresses, in this order, and no other
cell is in use. -/
structure Holds (l : GmrList) (xs : List (Nat × Gmr)) : Prop where
  linked : Linked l.cells l.head xs
  count : l.count = xs.length
  only : ∀ a, l.cells a ≠ none → a ∈ xs.map Prod.fst

theorem holds_empty : empty.Holds [] := ⟨.empty, rfl, fun _ h => absurd rfl h⟩

section
variable {l : GmrList} {xs ys : List (Nat × Gmr)}

theorem Holds.mem (h : l.Holds xs) (hc : l.cells a = some c) : (a, c.val) ∈ xs := by
  obtain ⟨x, hx, rfl⟩ := List.mem_map.mp (h.only a (by simp [hc]))
  obtain ⟨_, _, hx'⟩ := h.linked.get (a := x.1) (v := x.2) hx
  rw [hc] at hx'
  cases hx'
  exact hx

theorem get_ok (hc : l.cells a = some c) : l.get a = .ok c := by
  simp [get, hc]

theorem assign_ok (hc : l.cells a = some c) (f : Cell Gmr → Cell Gmr) :
    l.assign a f = .ok { l with cells := Function.update l.cells a (some (f c)) } := by
  rw [assign, get_ok hc]
  rfl

theorem tailFrom_ok (h : l.Holds (ys ++ (a, m) :: xs)) {fuel : Nat} (hf : xs.length < fuel) :
    ∃ t, l.tailFrom fuel a = .ok t ∧ lastAddr ((a, m) :: xs) = some t := by
  induction xs generalizing ys a m fuel with
  | nil =>
    obtain ⟨fuel, rfl⟩ : ∃ k, fuel = k + 1 := ⟨fuel - 1, by omega⟩
    have hc := h.linked.links ys a m [] rfl
    exact ⟨a, by rw [tailFrom, get_ok hc]; rfl, rfl⟩
  | cons x xs ih =>
    obtain ⟨fuel, rfl⟩ : ∃ k, fuel = k + 1 := ⟨fuel - 1, by omega⟩
    have hc := h.linked.links ys a m (x :: xs) rfl
    have h' : l.Holds ((ys ++ [(a, m)]) ++ (x.1, x.2) :: xs) := by simpa using h
    obtain ⟨t, ht, hlast⟩ := ih h' (by simpa using hf)
    refine ⟨t, ?_, by rw [lastAddr_cons_cons]; exact hlast⟩
    rw [tailFrom, get_ok hc]
    exact ht

theorem append_ok (h : l.Holds xs) (ha : a ∉ xs.map Prod.fst) (mreg : Gmr) :
    ∃ l', l.append a mreg = .ok l' ∧ l'.Holds (xs ++ [(a, mreg)]) := by
  cases xs with
  | nil =>
    have hh : l.head = none := h.linked.head
    refine ⟨_, by rw [append, hh], Linked.first mreg l.cells a, by simp [h.count], fun b hb => ?_⟩
    have := h.only b
    grind [Function.update_apply]
  | cons x xs =>
    have hh : l.head = some x.1 := h.linked.head
    have h' : l.Holds ([] ++ (x.1, x.2) :: xs) := h
    obtain ⟨t, ht, hlast⟩ := tailFrom_ok h' (by simp [h.count] : xs.length < l.count)
    obtain ⟨y, hy, rfl⟩ := Option.map_eq_some_iff.mp hlast
    obtain ⟨p, n, hc⟩ := h.linked.get (a := y.1) (v := y.2) (List.mem_of_getLast? hy)
    refine ⟨⟨Function.update (Function.update l.cells y.1 (some ⟨y.2, p, some a⟩)) a
      (some ⟨mreg, some y.1, none⟩), l.head, l.count + 1⟩, ?_, h.linked.append ha hlast hc mreg,
      by simp [h.count], fun b hb => ?_⟩
    · simp only [append, hh, ht, assign_ok hc, bind, Except.bind]
    · have := h.only b
      have := h.only y.1
      grind [Function.update_apply]

theorem unlinkPrev_ok (h : l.Holds (xs ++ (a, m) :: ys)) :
    l.unlinkPrev a ⟨m, lastAddr xs, headAddr ys⟩ =
      .ok ⟨setNext l.cells (lastAddr xs) (headAddr ys), headAddr (xs ++ ys), l.count⟩ := by
  cases xs with
  | nil =>
    have hh : l.head = some a := h.linked.head
    simp [unlinkPrev, hh, setNext_none]
  | cons x xs =>
    obtain ⟨y, hy⟩ : ∃ y, (x :: xs).getLast? = some y := ⟨_, List.getLast?_cons⟩
    have hlast : lastAddr (x :: xs) = some y.1 := by simp [lastAddr, hy]
    obtain ⟨p, n, hp⟩ := h.linked.get (a := y.1) (v := y.2)
      (List.mem_append_left _ (List.mem_of_getLast? hy))
    have hh : l.head = some x.1 := h.linked.head
    simp [unlinkPrev, hlast, assign_ok hp, setNext_some hp, hh]

theorem unlinkNext_ok (hc : ∀ n, mreg.next = some n → ∃ c, l.cells n = some c) :
    l.unlinkNext mreg = .ok { l with cells := setPrev l.cells mreg.next mreg.prev } := by
  unfold unlinkNext
  split
  · rename_i hn
    simp [hn, setPrev_none]
  · rename_i n hn
    obtain ⟨c, hc⟩ := hc n hn
    simp [assign_ok hc, hn, setPrev_some hc]

theorem unlink_ok (h : l.Holds (xs ++ (a, m) :: ys)) :
    ∃ l', l.unlink a = .ok l' ∧ l'.Holds (xs ++ ys) := by
  refine ⟨⟨bypass l.cells a (lastAddr xs) (headAddr ys), headAddr (xs ++ ys), l.count - 1⟩, ?_,
    h.linked.bypass, by simp [h.count], fun b hb => ?_⟩
  rotate_left
  · have := h.only b
    simp only [bypass, Function.update_apply, setPrev, setNext] at hb
    grind
  have hnext : ∀ n, headAddr ys = some n →
      ∃ c, setNext l.cells (lastAddr xs) (headAddr ys) n = some c := by
    intro n hn
    obtain ⟨y, hy, rfl⟩ := Option.map_eq_some_iff.mp hn
    obtain ⟨p, n, hc⟩ := h.linked.get (a := y.1) (v := y.2)
      (List.mem_append_right _ (List.mem_cons_of_mem _ (List.mem_of_head? hy)))
    exact exists_setNext hc _ _
  rw [unlink, get_ok (h.linked.links xs a m ys rfl)]
  simp only [bind, Except.bind, unlinkPrev_ok h]
  rw [unlinkNext_ok hnext]
  rfl

/-- The walk finds the first region whose slice of `proc` contains the address. -/
theorem lookupFrom_ok (h : l.Holds (ys ++ xs)) (hn : ∀ x ∈ xs, proc < x.2.nslices) {fuel : Nat}
    (hf : xs.length ≤ fuel) :
    l.lookupFrom ptr proc fuel (headAddr xs) =
      .ok ((xs.find? fun x => (x.2.slice proc).Contains ptr).map Prod.fst) := by
  induction xs generalizing ys fuel with
  | nil => cases fuel <;> rfl
  | cons x xs ih =>
    obtain ⟨fuel, rfl⟩ : ∃ k, fuel = k + 1 := ⟨fuel - 1, by simp at hf; omega⟩
    have hc := h.linked.links ys x.1 x.2 xs rfl
    have h' : l.Holds ((ys ++ [x]) ++ xs) := by simpa using h
    rw [headAddr_cons, lookupFrom, get_ok hc, List.find?_cons]
    simp only [bind, Except.bind, hn x List.mem_cons_self, not_true, if_false]
    split
    · rename_i hin
      rw [decide_eq_true (show (x.2.slice proc).Contains ptr from hin)]
      rfl
    · rename_i hout
      rw [decide_eq_false (show ¬ (x.2.slice proc).Contains ptr from hout)]
      exact ih h' (fun y hy => hn y (List.mem_cons_of_mem x hy)) (by simpa using hf)

theorem lookup_ok (h : l.Holds xs) (hn : ∀ x ∈ xs, proc < x.2.nslices) (ptr : Int) :
    l.lookup ptr proc = .ok ((xs.find? fun x => (x.2.slice proc).Contains ptr).map Prod.fst) := by
  rw [lookup, h.linked.head]
  have h' : l.Holds ([] ++ xs) := h
  exact lookupFrom_ok h' hn (by simp [h.count])

theorem lookup_lookupIn (h : l.Holds xs) (hn : ∀ x ∈ xs, proc < x.2.nslices) (ptr : Int) :
    lookupIn ptr proc (xs.map Prod.snd) =
      (l.lookup ptr proc).map fun p => p.bind fun a => (l.cells a).map Cell.val := by
  have hn' : ∀ mreg ∈ xs.map Prod.snd, proc < mreg.nslices := by
    intro mreg hmem
    obtain ⟨x, hx, rfl⟩ := List.mem_map.mp hmem
    exact hn x hx
  rw [lookup_ok h hn, lookupIn_eq_find ptr hn', List.find?_map]
  simp only [Function.comp_def, Except.map]
  cases hfind : xs.find? fun x => (x.2.slice proc).Contains ptr with
  | none => rfl
  | some x =>
    obtain ⟨p, n, hc⟩ := h.linked.get (a := x.1) (v := x.2) (List.mem_of_find?_eq_some hfind)
    simp [hc]

end

end GmrList

end ArmciMpi
