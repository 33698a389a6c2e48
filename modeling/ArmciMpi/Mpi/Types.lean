import Mathlib.Algebra.Order.Ring.Int
import Mathlib.Data.List.Basic
import Mathlib.Data.List.Nodup

/-!
# What ARMCI uses of MPI

Communicators, windows, datatypes and the one-sided operations, as far as the
runtime looks at them. A datatype is its list of element displacements in type
order; a transfer pairs the k-th element of the origin with the k-th element
of the target. The actions of one process are recorded in the order in which
it performs them, and `pending` says which operations are still incomplete
after them: a flush completes an operation at both ends, a local flush only at
the origin. Addresses are integers, and 0 is both the null pointer and
`MPI_BOTTOM`.
-/

namespace ArmciMpi

/-- A value that is computed in, or converted to, a 32-bit `int`. -/
def i32 (x : Int) : Int := x.bmod (2 ^ 32)

def intMax : Int := 2 ^ 31 - 1

theorem i32_of_range {x : Int} (h₀ : 0 ≤ x) (h₁ : x ≤ intMax) : i32 x = x := by
  unfold intMax at h₁
  exact Int.bmod_eq_of_le (by omega) (by omega)

theorem i32_le (x : Int) : i32 x ≤ intMax := by
  have := Int.bmod_lt (x := x) (m := 2 ^ 32) (by decide)
  unfold i32 intMax
  omega

/-- A value that is computed in a 64-bit `long`. -/
def i64 (x : Int) : Int := x.bmod (2 ^ 64)

def longMax : Int := 2 ^ 63 - 1

theorem i64_of_range {x : Int} (h₀ : 0 ≤ x) (h₁ : x ≤ longMax) : i64 x = x := by
  unfold longMax at h₁
  exact Int.bmod_eq_of_le (by omega) (by omega)

theorem i64_add_i64 (x y : Int) : i64 (x + i64 y) = i64 (x + y) := Int.add_bmod_bmod

/-- The value fits an `int`. -/
def InInt (x : Int) : Prop := -2 ^ 31 ≤ x ∧ x ≤ intMax

instance (x : Int) : Decidable (InInt x) := inferInstanceAs (Decidable (_ ∧ _))

theorem inInt_of_nonneg {x : Int} (h₀ : 0 ≤ x) (h₁ : x ≤ intMax) : InInt x := ⟨by omega, h₁⟩

/-- The value of an `int` expression; overflow is undefined and an error here. -/
def checkInt (x : Int) : Except String Int :=
  if InInt x then .ok x else .error "integer overflow"

theorem checkInt_eq_ok {x y : Int} : checkInt x = .ok y ↔ InInt x ∧ y = x := by
  unfold checkInt
  split
  · rename_i h
    exact ⟨fun heq => ⟨h, (Except.ok.inj heq).symm⟩, fun ⟨_, heq⟩ => by rw [heq]⟩
  · rename_i h
    exact iff_of_false (by simp) fun hc => h hc.1

/-- A communicator handle with the world ranks of its members in rank order. -/
structure Comm where
  id : Nat
  ranks : List Nat
  nodup : ranks.Nodup
  deriving DecidableEq

def Comm.rankOf (c : Comm) (w : Nat) : Option Nat := c.ranks.idxOf? w

/-- A window with the base address each member exposes, by group rank. -/
structure Win where
  id : Nat
  comm : Comm
  base : List Int
  deriving DecidableEq

def Win.worldRank (w : Win) (target : Int) : Option Nat :=
  if 0 ≤ target then w.comm.ranks[target.toNat]? else none

theorem idxOf?_eq_some_iff_getElem? {α : Type} [DecidableEq α] {l : List α} (hl : l.Nodup) {a : α}
    {i : Nat} : l.idxOf? a = some i ↔ l[i]? = some a := by
  rw [List.idxOf?_eq_some_iff]
  constructor
  · rintro ⟨hi, ha, -⟩
    exact List.getElem?_eq_some_iff.mpr ⟨hi, ha⟩
  · intro h
    obtain ⟨hi, ha⟩ := List.getElem?_eq_some_iff.mp h
    refine ⟨hi, ha, fun j hj hja => ?_⟩
    have heq := (List.getElem_inj hl).mp (hja.trans ha.symm)
    omega

theorem Comm.rankOf_eq_some {c : Comm} {w g : Nat} :
    c.rankOf w = some g ↔ c.ranks[g]? = some w :=
  idxOf?_eq_some_iff_getElem? c.nodup

theorem Comm.rankOf_isSome {c : Comm} {w : Nat} : (c.rankOf w).isSome ↔ w ∈ c.ranks := by
  simp [rankOf]

theorem Comm.rankOf_lt {c : Comm} {w g : Nat} (h : c.rankOf w = some g) :
    g < c.ranks.length :=
  (List.getElem?_eq_some_iff.mp (rankOf_eq_some.mp h)).1

theorem Win.worldRank_eq_some {win : Win} {w g : Nat} (h : win.comm.rankOf w = some g) :
    win.worldRank g = some w := by
  simp [worldRank, Comm.rankOf_eq_some.mp h]

theorem Win.rankOf_of_worldRank {win : Win} {t : Int} {w : Nat} (h : win.worldRank t = some w) :
    ∃ g : Nat, t = g ∧ win.comm.rankOf w = some g := by
  unfold worldRank at h
  split at h
  · rename_i ht
    exact ⟨t.toNat, (Int.toNat_of_nonneg ht).symm, Comm.rankOf_eq_some.mpr h⟩
  · cases h

-- ------------------------------
-- Datatypes
-- ------------------------------

inductive BaseType
  | byte
  | int
  | long
  | float
  | double
  deriving DecidableEq

def BaseType.size : BaseType → Nat
  | .byte => 1
  | .int => 4
  | .long => 8
  | .float => 4
  | .double => 8

theorem BaseType.size_pos (b : BaseType) : 0 < b.size := by cases b <;> decide

/-- A datatype over one predefined type: the byte displacements of the elements in
type order, and the extent. -/
structure Dtype where
  base : BaseType
  disps : List Int
  extent : Int
  deriving DecidableEq

namespace Dtype

def predefined (b : BaseType) : Dtype := ⟨b, [0], b.size⟩

def elemSize (t : Dtype) : Nat := t.base.size

/-- `MPI_Type_size`. -/
def size (t : Dtype) : Nat := t.elemSize * t.disps.length

/-- The elements of `count` consecutive items of a type. -/
def elems (count : Nat) (t : Dtype) : List Int :=
  (List.range count).flatMap fun (i : Nat) => t.disps.map (i * t.extent + ·)

/-- `MPI_Type_contiguous`. -/
def contiguous (count : Nat) (t : Dtype) : Dtype :=
  ⟨t.base, t.elems count, count * t.extent⟩

/-- The positions a subarray starting at the origin selects in an array, the
last dimension varying fastest. -/
def subarrayIndices : List Nat → List Nat → List Nat
  | _ :: sizes, sub :: subsizes =>
    (List.range sub).flatMap fun j => (subarrayIndices sizes subsizes).map (j * sizes.prod + ·)
  | _, _ => [0]

/-- `MPI_Type_create_subarray` with all starts 0, in C order. -/
def subarray (sizes subsizes : List Nat) (t : Dtype) : Dtype :=
  ⟨t.base,
    (subarrayIndices sizes subsizes).flatMap fun (k : Nat) => t.disps.map (k * t.extent + ·),
    sizes.prod * t.extent⟩

def trueLb (t : Dtype) : Int := t.disps.foldl min (t.disps.headD 0)

def trueUb (t : Dtype) : Int :=
  if t.disps = [] then 0 else t.disps.foldl max (t.disps.headD 0) + t.elemSize

/-- The extent `MPI_Type_get_true_extent` reports. -/
def trueExtent (t : Dtype) : Int := t.trueUb - t.trueLb

/-- `MPI_Type_create_indexed_block`: displacements in multiples of the extent. -/
def indexedBlock (blocklength : Nat) (disps : List Int) (t : Dtype) : Dtype :=
  let ds := disps.flatMap fun d => (List.range blocklength).flatMap fun (j : Nat) =>
    t.disps.map ((d + j) * t.extent + ·)
  let flat : Dtype := ⟨t.base, ds, 0⟩
  { flat with extent := flat.trueExtent }

end Dtype

-- ------------------------------
-- Actions
-- ------------------------------

inductive RmaKind
  | put
  | get
  | acc
  deriving DecidableEq

/-- One call of `MPI_Put`, `MPI_Get` or `MPI_Accumulate` with `MPI_SUM`.
`atomic` marks the accumulate form of a put or get, `request` the handle that
records the request of the request-based form. -/
structure Rma where
  kind : RmaKind
  atomic : Bool
  request : Option Nat
  win : Win
  target : Int
  origin : Int
  originCount : Nat
  originType : Dtype
  disp : Int
  targetCount : Nat
  targetType : Dtype
  deriving DecidableEq

namespace Rma

def originElems (op : Rma) : List Int :=
  (op.originType.elems op.originCount).map (op.origin + ·)

def targetBase (op : Rma) : Int := (op.win.base[op.target.toNat]?).getD 0

def targetElems (op : Rma) : List Int :=
  (op.targetType.elems op.targetCount).map (op.targetBase + op.disp + ·)

/-- The operation reads or writes a byte of `[p, p + n)` of the origin. -/
def Touches (op : Rma) (p : Int) (n : Nat) : Prop :=
  ∃ a ∈ op.originElems, a < p + n ∧ p < a + op.originType.elemSize

instance (op : Rma) (p : Int) (n : Nat) : Decidable (op.Touches p n) :=
  inferInstanceAs (Decidable (∃ a ∈ op.originElems, a < p + n ∧ p < a + op.originType.elemSize))

end Rma

/-- A scalar of one of the accumulate types, the complex ones as two parts. -/
inductive Scale
  | int (s : Int)
  | lng (s : Int)
  | flt (s : Float32)
  | dbl (s : Float)
  | cpl (re im : Float32)
  | dcp (re im : Float)

/-- What one process does: MPI calls and accesses to its own memory. -/
inductive Act
  | rma (op : Rma)
  | flush (win : Win) (target : Int)
  | flushLocal (win : Win) (target : Int)
  | flushAll (win : Win)
  | flushLocalAll (win : Win)
  | winSync (win : Win)
  /-- `memmove` of `n` bytes. -/
  | copy (src dst : Int) (n : Nat)
  /-- `n` numbers are multiplied by `s` into `dst`. -/
  | scale (s : Scale) (src dst : Int) (n : Nat)
  | allocMem (ptr : Int) (n : Nat)
  | freeMem (ptr : Int)
  /-- Without request-based operations a handle only keeps its target. -/
  | setTarget (handle : Nat) (target : Int)
  | iprobe

-- ------------------------------
-- Completion
-- ------------------------------

def Rma.On (op : Rma) (win : Win) (target : Int) : Prop :=
  op.win.id = win.id ∧ op.target = target

instance (op : Rma) (win : Win) (target : Int) : Decidable (op.On win target) :=
  inferInstanceAs (Decidable (op.win.id = win.id ∧ op.target = target))

inductive Side
  | origin
  | target
  deriving DecidableEq

def Act.Completes (side : Side) (a : Act) (op : Rma) : Prop :=
  match a with
  | .flush w t => op.On w t
  | .flushLocal w t => side = .origin ∧ op.On w t
  | .flushAll w => op.win.id = w.id
  | .flushLocalAll w => side = .origin ∧ op.win.id = w.id
  | _ => False

instance (side : Side) (a : Act) (op : Rma) : Decidable (a.Completes side op) :=
  match a with
  | .flush w t => inferInstanceAs (Decidable (op.On w t))
  | .flushLocal w t => inferInstanceAs (Decidable (side = .origin ∧ op.On w t))
  | .flushAll w => inferInstanceAs (Decidable (op.win.id = w.id))
  | .flushLocalAll w => inferInstanceAs (Decidable (side = .origin ∧ op.win.id = w.id))
  | .rma _ | .winSync _ | .copy .. | .scale .. | .allocMem .. | .freeMem _ | .setTarget ..
  | .iprobe => inferInstanceAs (Decidable False)

def Act.issues : Act → List Rma
  | .rma op => [op]
  | _ => []

def Act.pendingStep (side : Side) (pending : List Rma) (a : Act) : List Rma :=
  pending.filter (fun op => ¬ a.Completes side op) ++ a.issues

def pending (side : Side) (acts : List Act) : List Rma := acts.foldl (Act.pendingStep side) []

@[simp] theorem pending_nil (side : Side) : pending side [] = [] := rfl

theorem pending_append (side : Side) (acts acts' : List Act) :
    pending side (acts ++ acts') = acts'.foldl (Act.pendingStep side) (pending side acts) := by
  simp [pending]

theorem pending_snoc (side : Side) (acts : List Act) (a : Act) :
    pending side (acts ++ [a]) =
      (pending side acts).filter (fun op => ¬ a.Completes side op) ++ a.issues := by
  simp [pending_append, Act.pendingStep]

/-- What is incomplete after actions that issue nothing was incomplete before
and none of the actions completes it. -/
theorem mem_foldl_pendingStep {side : Side} {acts : List Act} {before : List Rma}
    (hacts : ∀ a ∈ acts, a.issues = []) {op : Rma}
    (hop : op ∈ acts.foldl (Act.pendingStep side) before) :
    op ∈ before ∧ ∀ a ∈ acts, ¬ a.Completes side op := by
  induction acts generalizing before with
  | nil => exact ⟨hop, fun a ha => absurd ha List.not_mem_nil⟩
  | cons a acts ih =>
    obtain ⟨hmem, hrest⟩ := ih (fun b hb => hacts b (List.mem_cons_of_mem a hb)) hop
    simp only [Act.pendingStep, hacts a List.mem_cons_self, List.append_nil, List.mem_filter,
      decide_eq_true_eq] at hmem
    refine ⟨hmem.1, fun b hb => ?_⟩
    rcases List.mem_cons.mp hb with rfl | hb
    · exact hmem.2
    · exact hrest b hb

def issued (acts : List Act) : List Rma := acts.flatMap Act.issues

theorem issued_append (acts acts' : List Act) : issued (acts ++ acts') = issued acts ++ issued acts' :=
  List.flatMap_append

theorem mem_foldl_pending {side : Side} {acts : List Act} {before : List Rma} {op : Rma}
    (hop : op ∈ acts.foldl (Act.pendingStep side) before) : op ∈ before ∨ op ∈ issued acts := by
  induction acts generalizing before with
  | nil => exact .inl hop
  | cons a acts ih =>
    rw [issued, List.flatMap_cons, List.mem_append]
    rcases ih hop with hmem | hmem
    · rcases List.mem_append.mp hmem with hmem | hmem
      · exact .inl (List.mem_filter.mp hmem).1
      · exact .inr (.inl hmem)
    · exact .inr (.inr hmem)

theorem mem_pending {side : Side} {acts : List Act} {op : Rma} (hop : op ∈ pending side acts) :
    op ∈ issued acts := (mem_foldl_pending hop).resolve_left List.not_mem_nil

theorem pending_append_of_nil {side : Side} {acts : List Act} (h : pending side acts = [])
    (acts' : List Act) : pending side (acts ++ acts') = pending side acts' := by
  rw [pending_append, h, pending]

theorem pending_snoc_nil {side : Side} {acts : List Act} {a : Act}
    (h : ∀ op ∈ issued acts, a.Completes side op) (ha : a.issues = []) :
    pending side (acts ++ [a]) = [] := by
  rw [pending_snoc, ha, List.append_nil, List.filter_eq_nil_iff]
  intro op hop
  simpa using h op (mem_pending hop)

theorem mem_pending_append {side : Side} {acts acts' : List Act}
    (h : ∀ a ∈ acts', ∀ op, ¬ a.Completes side op) {op : Rma}
    (hop : op ∈ pending side acts ∨ op ∈ issued acts') : op ∈ pending side (acts ++ acts') := by
  rw [pending_append]
  generalize pending side acts = before at hop ⊢
  induction acts' generalizing before with
  | nil => exact hop.resolve_right List.not_mem_nil
  | cons a acts' ih =>
    refine ih (fun b hb => h b (List.mem_cons_of_mem a hb)) _ ?_
    simp only [Act.pendingStep, List.mem_append, List.mem_filter, decide_eq_true_eq]
    rw [issued, List.flatMap_cons, List.mem_append] at hop
    rcases hop with hop | hop | hop
    · exact .inl (.inl ⟨hop, h a List.mem_cons_self op⟩)
    · exact .inl (.inr hop)
    · exact .inr hop

theorem mem_pending_suffix {side : Side} {acts : List Act} {op : Rma}
    (hop : op ∈ pending side acts) (before : List Act) : op ∈ pending side (before ++ acts) := by
  have hmono : ∀ (acts : List Act) (P Q : List Rma), P ⊆ Q →
      acts.foldl (Act.pendingStep side) P ⊆ acts.foldl (Act.pendingStep side) Q := by
    intro acts
    induction acts with
    | nil => exact fun _ _ hPQ => hPQ
    | cons a acts ih =>
      refine fun P Q hPQ => ih _ _ fun x hx => ?_
      simp only [Act.pendingStep, List.mem_append, List.mem_filter] at hx ⊢
      exact hx.imp_left fun hx => ⟨hPQ hx.1, hx.2⟩
  rw [pending_append]
  exact hmono acts _ _ (List.nil_subset _) hop

-- ------------------------------
-- Local actions
-- ------------------------------

def Act.Local : Act → Prop
  | .winSync _ | .copy .. | .scale .. | .allocMem .. | .setTarget .. | .iprobe => True
  | _ => False

def Act.NoFree (a : Act) : Prop := ∀ p, a ≠ .freeMem p

theorem Act.Local.pendingStep {a : Act} (ha : a.Local) (side : Side) (P : List Rma) :
    Act.pendingStep side P a = P := by
  cases a <;> first | exact ha.elim | simp [Act.pendingStep, Act.Completes, Act.issues]

theorem Act.Local.noFree {a : Act} (ha : a.Local) : a.NoFree := by
  rintro p rfl
  exact ha

end ArmciMpi
