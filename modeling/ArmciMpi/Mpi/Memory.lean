import ArmciMpi.Lib.Parts
import ArmciMpi.Mpi.Types
import Mathlib.Data.List.GetD

/-!
# Memory

The memory of all processes is a function from locations to bytes. An element
of an operation is a `move`: some bytes become a function of as many bytes
elsewhere and of themselves. A put or get writes the bytes it reads, an
accumulate adds numbers stored with their lowest byte first.

`Act.steps` says what the actions of a process do to the memory, with the
operations in flight until a flush completes them; the elements of an operation
are separate transfers in no order.
-/

namespace ArmciMpi

open Lib

abbrev Loc := Nat × Int

abbrev Mem := Loc → UInt8

-- ------------------------------
-- Blocks
-- ------------------------------

def block (s : Loc) (n : Nat) : Set Loc := {l | l.1 = s.1 ∧ s.2 ≤ l.2 ∧ l.2 < s.2 + n}

instance (l s : Loc) (n : Nat) : Decidable (l ∈ block s n) :=
  inferInstanceAs (Decidable (l.1 = s.1 ∧ s.2 ≤ l.2 ∧ l.2 < s.2 + n))

theorem mem_block_iff {l s : Loc} {n : Nat} :
    l ∈ block s n ↔ ∃ i < n, l = (s.1, s.2 + (i : Nat)) := by
  obtain ⟨r, a⟩ := l
  constructor
  · rintro ⟨hr, hle, hlt⟩
    refine ⟨(a - s.2).toNat, by omega, Prod.ext hr ?_⟩
    show a = s.2 + ((a - s.2).toNat : Nat)
    omega
  · rintro ⟨i, hi, heq⟩
    cases heq
    exact ⟨rfl, by omega, by omega⟩

theorem block_subset {s t : Loc} {n k : Nat} (hr : s.1 = t.1) (hle : t.2 ≤ s.2)
    (hend : s.2 + n ≤ t.2 + k) : block s n ⊆ block t k := by
  rintro l ⟨h₁, h₂, h₃⟩
  exact ⟨h₁.trans hr, by omega, by omega⟩

theorem block_disjoint {s t : Loc} {n k : Nat} (h : s.1 = t.1 → s.2 + n ≤ t.2 ∨ t.2 + k ≤ s.2) :
    Disjoint (block s n) (block t k) := by
  rw [Set.disjoint_left]
  rintro l ⟨h₁, h₂, h₃⟩ ⟨h₄, h₅, h₆⟩
  have := h (h₁.symm.trans h₄)
  omega

def bytesAt (m : Mem) (s : Loc) (n : Nat) : List UInt8 :=
  (List.range n).map fun (i : Nat) => m (s.1, s.2 + i)

@[simp] theorem bytesAt_length (m : Mem) (s : Loc) (n : Nat) : (bytesAt m s n).length = n := by
  simp [bytesAt]

theorem bytesAt_get (m : Mem) (s : Loc) {n i : Nat} (hi : i < n) :
    (bytesAt m s n).getD i 0 = m (s.1, s.2 + i) := by
  simp [bytesAt, hi]

theorem bytesAt_congr {m m' : Mem} {s : Loc} {n : Nat} (h : Set.EqOn m m' (block s n)) :
    bytesAt m s n = bytesAt m' s n :=
  List.map_congr_left fun i hi => h (mem_block_iff.mpr ⟨i, List.mem_range.mp hi, rfl⟩)

theorem bytesAt_apply {m m' : Mem} {s t : Loc} {n : Nat} (h : bytesAt m s n = bytesAt m' t n)
    {i : Nat} (hi : i < n) : m (s.1, s.2 + i) = m' (t.1, t.2 + i) := by
  rw [← bytesAt_get m s hi, ← bytesAt_get m' t hi, h]

theorem eqOn_block {m m' : Mem} {s : Loc} {n : Nat} (h : bytesAt m s n = bytesAt m' s n) :
    Set.EqOn m m' (block s n) := by
  intro l hl
  obtain ⟨i, hi, rfl⟩ := mem_block_iff.mp hl
  exact bytesAt_apply h hi

def writeBytes (m : Mem) (s : Loc) (bytes : List UInt8) : Mem := fun l =>
  if l ∈ block s bytes.length then bytes.getD (l.2 - s.2).toNat 0 else m l

theorem writeBytes_get (m : Mem) (s : Loc) {bytes : List UInt8} {i : Nat} (hi : i < bytes.length) :
    writeBytes m s bytes (s.1, s.2 + i) = bytes.getD i 0 := by
  have hmem : (s.1, s.2 + (i : Int)) ∈ block s bytes.length := mem_block_iff.mpr ⟨i, hi, rfl⟩
  have hidx : (s.2 + (i : Int) - s.2).toNat = i := by omega
  rw [writeBytes, if_pos hmem, hidx]

theorem writeBytes_bytes (m : Mem) (s : Loc) {bytes : List UInt8} {n : Nat}
    (hlen : bytes.length = n) : bytesAt (writeBytes m s bytes) s n = bytes := by
  refine List.ext_getElem (by simp [hlen]) fun i hi hi' => ?_
  simp only [bytesAt, List.getElem_map, List.getElem_range]
  rw [writeBytes_get m s hi', List.getD_eq_getElem _ _ hi']

theorem writeBytes_frame (m : Mem) (s : Loc) (bytes : List UInt8) {l : Loc}
    (hl : l ∉ block s bytes.length) : writeBytes m s bytes l = m l := if_neg hl

-- ------------------------------
-- Moves
-- ------------------------------

/-- The `n` bytes at `t` become a function of those at `s` and of themselves. -/
def move (fn : List UInt8 → List UInt8 → List UInt8) (n : Nat) (s t : Loc) : Xfer Loc UInt8 where
  src := block s n
  dst := block t n
  run := fun a b l =>
    if l ∈ block t n then (fn (bytesAt a s n) (bytesAt b t n)).getD (l.2 - t.2).toNat 0 else b l
  frame := fun _ _ _ hl => if_neg hl
  source := fun a a' b h => by rw [bytesAt_congr h]
  target := fun a b b' h l hl => by simp only [if_pos hl, bytesAt_congr h]

def KeepsLength (n : Nat) (fn : List UInt8 → List UInt8 → List UInt8) : Prop :=
  ∀ x y, x.length = n → y.length = n → (fn x y).length = n

section
variable {fn : List UInt8 → List UInt8 → List UInt8} {n : Nat}

theorem move_bytes (hfn : KeepsLength n fn) (a b : Mem) (s t : Loc) :
    bytesAt ((move fn n s t).run a b) t n = fn (bytesAt a s n) (bytesAt b t n) := by
  have hlen := hfn (bytesAt a s n) (bytesAt b t n) (by simp) (by simp)
  refine List.ext_getElem (by simp [hlen]) fun i hi hi' => ?_
  have hmem : (t.1, t.2 + (i : Int)) ∈ block t n := mem_block_iff.mpr ⟨i, by simpa using hi, rfl⟩
  have hidx : (t.2 + (i : Int) - t.2).toNat = i := by omega
  simp only [bytesAt, List.getElem_map, List.getElem_range, move, if_pos hmem, hidx]
  exact List.getD_eq_getElem _ _ hi'

theorem move_comm (hfn : KeepsLength n fn)
    (hcomm : ∀ x y d, x.length = n → y.length = n → d.length = n → fn x (fn y d) = fn y (fn x d))
    (s s' t : Loc) (a a' b : Mem) :
    (move fn n s t).run a ((move fn n s' t).run a' b) =
      (move fn n s' t).run a' ((move fn n s t).run a b) := by
  funext l
  by_cases hl : l ∈ block t n
  · refine eqOn_block ?_ hl
    rw [move_bytes hfn, move_bytes hfn, move_bytes hfn, move_bytes hfn]
    exact hcomm _ _ _ (by simp) (by simp) (by simp)
  · rw [(move fn n s t).frame _ _ _ hl, (move fn n s' t).frame _ _ _ hl,
      (move fn n s' t).frame _ _ _ hl, (move fn n s t).frame _ _ _ hl]

end

def moveAll (fn : List UInt8 → List UInt8 → List UInt8) (n : Nat) (ends : List (Loc × Loc)) :
    List (Xfer Loc UInt8) :=
  ends.map fun e => move fn n e.1 e.2

theorem moveAll_append (fn : List UInt8 → List UInt8 → List UInt8) (n : Nat)
    (ends ends' : List (Loc × Loc)) :
    moveAll fn n (ends ++ ends') = moveAll fn n ends ++ moveAll fn n ends' := List.map_append

/-- No two moves have the same target, and none reads a target. -/
structure Spread (n : Nat) (ends : List (Loc × Loc)) : Prop where
  targets : ends.Pairwise fun e e' => Disjoint (block e.2 n) (block e'.2 n)
  sources : ∀ e ∈ ends, ∀ e' ∈ ends, Disjoint (block e.1 n) (block e'.2 n)

theorem Spread.indep {n : Nat} {ends : List (Loc × Loc)} (h : Spread n ends)
    (fn : List UInt8 → List UInt8 → List UInt8) : (moveAll fn n ends).Pairwise Xfer.Indep := by
  rw [moveAll, List.pairwise_map]
  refine h.targets.imp_of_mem fun {e e'} he he' hdisj => ?_
  exact Xfer.indep_of_disjoint (h.sources e' he' e he).symm (h.sources e he e' he') hdisj

theorem Spread.tail {n : Nat} {e : Loc × Loc} {ends : List (Loc × Loc)} (h : Spread n (e :: ends)) :
    Spread n ends :=
  ⟨(List.pairwise_cons.mp h.targets).2, fun e₁ h₁ e₂ h₂ =>
    h.sources e₁ (List.mem_cons_of_mem e h₁) e₂ (List.mem_cons_of_mem e h₂)⟩

theorem moveAll_frame {fn : List UInt8 → List UInt8 → List UInt8} {n : Nat}
    {ends : List (Loc × Loc)} {s : Set Loc} (h : ∀ e ∈ ends, Disjoint (block e.2 n) s) (m : Mem) :
    Set.EqOn (Xfer.applyAll (moveAll fn n ends) m) m s := by
  refine Xfer.applyAll_eqOn (fun x hx => ?_) m
  obtain ⟨e, he, rfl⟩ := List.mem_map.mp hx
  exact h e he

theorem moveAll_bytes {fn : List UInt8 → List UInt8 → List UInt8} {n : Nat} (hfn : KeepsLength n fn)
    {ends : List (Loc × Loc)} (h : Spread n ends) (m : Mem) {e : Loc × Loc} (he : e ∈ ends) :
    bytesAt (Xfer.applyAll (moveAll fn n ends) m) e.2 n =
      fn (bytesAt m e.1 n) (bytesAt m e.2 n) := by
  induction ends generalizing m with
  | nil => cases he
  | cons e₀ ends ih =>
    have htarget := (List.pairwise_cons.mp h.targets).1
    show bytesAt (Xfer.applyAll (moveAll fn n ends) ((move fn n e₀.1 e₀.2).run m m)) e.2 n = _
    rcases List.mem_cons.mp he with rfl | he
    · rw [bytesAt_congr (moveAll_frame (fun e' he' => (htarget e' he').symm) _), move_bytes hfn]
    · rw [ih h.tail _ he]
      congr 1
      · exact bytesAt_congr ((move fn n e₀.1 e₀.2).run_eqOn
          (h.sources e (List.mem_cons_of_mem e₀ he) e₀ List.mem_cons_self).symm m m)
      · exact bytesAt_congr ((move fn n e₀.1 e₀.2).run_eqOn (htarget e he) m m)

/-- Moves from prepared copies of the sources do outside the copies what moves
from the sources do. -/
theorem moveAll_prepared {fn fn' : List UInt8 → List UInt8 → List UInt8} {n : Nat}
    (hfn : KeepsLength n fn) (hfn' : KeepsLength n fn') {α : Type} {xs : List α}
    {source copy target : α → Loc} (h : Spread n (xs.map fun x => (source x, target x)))
    (h' : Spread n (xs.map fun x => (copy x, target x))) {s : Set Loc} {m m' : Mem}
    (hm : Set.EqOn m' m s) (htargets : ∀ x ∈ xs, block (target x) n ⊆ s)
    (hcopy : ∀ x ∈ xs, ∀ d, fn' (bytesAt m' (copy x) n) d = fn (bytesAt m (source x) n) d) :
    Set.EqOn (Xfer.applyAll (moveAll fn' n (xs.map fun x => (copy x, target x))) m')
      (Xfer.applyAll (moveAll fn n (xs.map fun x => (source x, target x))) m) s := by
  intro l hl
  by_cases hin : ∃ x ∈ xs, l ∈ block (target x) n
  · obtain ⟨x, hx, hlx⟩ := hin
    refine eqOn_block ?_ hlx
    have he := moveAll_bytes hfn h m (List.mem_map_of_mem hx)
    have he' := moveAll_bytes hfn' h' m' (List.mem_map_of_mem hx)
    rw [he, he', hcopy x hx, bytesAt_congr (hm.mono (htargets x hx))]
  · have hout : ∀ (a : α → Loc), ∀ e ∈ xs.map fun x => (a x, target x), Disjoint (block e.2 n) {l} := by
      intro a e he
      obtain ⟨x, hx, rfl⟩ := List.mem_map.mp he
      exact Set.disjoint_singleton_right.mpr fun hlx => hin ⟨x, hx, hlx⟩
    rw [moveAll_frame (hout copy) m' rfl, moveAll_frame (hout source) m rfl, hm hl]

-- ------------------------------
-- Numbers
-- ------------------------------

def leVal : List UInt8 → Nat
  | [] => 0
  | b :: bs => b.toNat + 256 * leVal bs

/-- The lowest `n` bytes of a number. -/
def leBytes : Nat → Nat → List UInt8
  | 0, _ => []
  | n + 1, v => UInt8.ofNat v :: leBytes n (v / 256)

@[simp] theorem leBytes_length (n v : Nat) : (leBytes n v).length = n := by
  induction n generalizing v with
  | zero => rfl
  | succ n ih => simp [leBytes, ih]

@[simp] theorem leVal_leBytes (n v : Nat) : leVal (leBytes n v) = v % 256 ^ n := by
  induction n generalizing v with
  | zero => simp [leBytes, leVal, Nat.mod_one]
  | succ n ih => simp [leBytes, leVal, ih, Nat.pow_succ', Nat.mod_mul]

theorem leBytes_congr {n v w : Nat} (h : v % 256 ^ n = w % 256 ^ n) : leBytes n v = leBytes n w := by
  induction n generalizing v w with
  | zero => rfl
  | succ n ih =>
    rw [Nat.pow_succ', Nat.mod_mul, Nat.mod_mul] at h
    have hlow : v % 256 = w % 256 := by omega
    have hhigh : v / 256 % 256 ^ n = w / 256 % 256 ^ n := by omega
    rw [leBytes, leBytes, ih hhigh]
    congr 1
    exact UInt8.toNat_inj.mp (by simpa using hlow)

theorem leBytes_leVal {bs : List UInt8} {n : Nat} (h : bs.length = n) : leBytes n (leVal bs) = bs := by
  subst h
  induction bs with
  | nil => rfl
  | cons b bs ih =>
    have hlt := b.toNat_lt
    have hhigh : (b.toNat + 256 * leVal bs) / 256 = leVal bs := by omega
    rw [List.length_cons, leBytes, leVal, hhigh, ih]
    congr 1
    exact UInt8.toNat_inj.mp (by simp)

theorem leVal_lt {bs : List UInt8} {n : Nat} (h : bs.length = n) : leVal bs < 256 ^ n := by
  rw [← leBytes_leVal h, leVal_leBytes]
  exact Nat.mod_lt _ (Nat.pow_pos (by decide))

def floatAt (bs : List UInt8) : Float32 := Float32.ofBits (UInt32.ofNat (leVal bs))

def doubleAt (bs : List UInt8) : Float := Float.ofBits (UInt64.ofNat (leVal bs))

def floatBytes (x : Float32) : List UInt8 := leBytes 4 x.toBits.toNat

def doubleBytes (x : Float) : List UInt8 := leBytes 8 x.toBits.toNat

/-- `MPI_SUM` of two elements; integers wrap around. -/
def BaseType.sum (b : BaseType) (x y : List UInt8) : List UInt8 :=
  match b with
  | .byte | .int | .long => leBytes b.size (leVal x + leVal y)
  | .float => floatBytes (floatAt x + floatAt y)
  | .double => doubleBytes (doubleAt x + doubleAt y)

theorem BaseType.keepsLength_sum (b : BaseType) : KeepsLength b.size b.sum := by
  intro x y _ _
  cases b <;> simp [sum, size, floatBytes, doubleBytes]

def Scale.unit : Scale → Nat
  | int _ | flt _ => 4
  | lng _ | dbl _ | cpl _ _ => 8
  | dcp _ _ => 16

def Scale.mul (s : Scale) (x : List UInt8) : List UInt8 :=
  match s with
  | int s => leBytes 4 (s * leVal x % 2 ^ 32).toNat
  | lng s => leBytes 8 (s * leVal x % 2 ^ 64).toNat
  | flt s => floatBytes (floatAt x * s)
  | dbl s => doubleBytes (doubleAt x * s)
  | cpl re im =>
    let a := floatAt (x.take 4)
    let b := floatAt (x.drop 4)
    floatBytes (a * re - b * im) ++ floatBytes (b * re + a * im)
  | dcp re im =>
    let a := doubleAt (x.take 8)
    let b := doubleAt (x.drop 8)
    doubleBytes (a * re - b * im) ++ doubleBytes (b * re + a * im)

theorem Scale.mul_length (s : Scale) (x : List UInt8) : (s.mul x).length = s.unit := by
  cases s <;> simp [mul, unit, floatBytes, doubleBytes]

-- ------------------------------
-- Actions
-- ------------------------------

def RmaKind.fn (kind : RmaKind) (b : BaseType) : List UInt8 → List UInt8 → List UInt8 :=
  match kind with
  | .put | .get => fun x _ => x
  | .acc => b.sum

theorem RmaKind.keepsLength_fn (kind : RmaKind) (b : BaseType) : KeepsLength b.size (kind.fn b) :=
  match kind with
  | .put | .get => fun _ _ hx _ => hx
  | .acc => b.keepsLength_sum

/-- From where to where an element moves, given its local and its remote address. -/
def RmaKind.ends (kind : RmaKind) (me proc : Nat) (p : Int × Int) : Loc × Loc :=
  match kind with
  | .put | .acc => ((me, p.1), (proc, p.2))
  | .get => ((proc, p.2), (me, p.1))

def Rma.pairs (op : Rma) : List (Int × Int) := op.originElems.zip op.targetElems

def Rma.xfers (me : Nat) (op : Rma) : List (Xfer Loc UInt8) :=
  moveAll (op.kind.fn op.originType.base) op.originType.elemSize
    (op.pairs.map (op.kind.ends me ((op.win.worldRank op.target).getD 0)))

/-- What an action does to the memory, and what it waits for. -/
def Act.steps (me : Nat) (a : Act) : List (Step Loc UInt8 Rma) :=
  match a with
  | .rma op => [.issue op (op.kind = .get) (op.xfers me)]
  | .flush .. | .flushLocal .. | .flushAll _ | .flushLocalAll _ =>
    [.wait (a.Completes .target) (a.Completes .origin)]
  | .copy src dst n => [.now (move (fun x _ => x) n (me, src) (me, dst))]
  | .scale s src dst n =>
    (List.range n).map fun (i : Nat) =>
      .now (move (fun x _ => s.mul x) s.unit (me, src + i * s.unit) (me, dst + i * s.unit))
  | .winSync _ | .allocMem .. | .freeMem _ | .setTarget .. | .iprobe => []

def actSteps (me : Nat) (acts : List Act) : List (Step Loc UInt8 Rma) := acts.flatMap (Act.steps me)

def actXfers (me : Nat) (acts : List Act) : List (Xfer Loc UInt8) := stepXfers (actSteps me acts)

theorem actSteps_append (me : Nat) (acts acts' : List Act) :
    actSteps me (acts ++ acts') = actSteps me acts ++ actSteps me acts' := List.flatMap_append

theorem actXfers_append (me : Nat) (acts acts' : List Act) :
    actXfers me (acts ++ acts') = actXfers me acts ++ actXfers me acts' := by
  rw [actXfers, actSteps_append, stepXfers_append]
  rfl

def Completed (me : Nat) (acts : List Act) (m m' : Mem) : Prop :=
  Relation.ReflTransGen ProcStep (m, ⟨[], actSteps me acts⟩) (m', ⟨[], []⟩)

theorem exists_completed (me : Nat) (acts : List Act) (m : Mem) :
    Completed me acts m (Xfer.applyAll (actXfers me acts) m) := exists_run_proc _ m

theorem Completed.memory {me : Nat} {acts : List Act} (h : RaceFree ∅ (actSteps me acts))
    {m m' : Mem} (hrun : Completed me acts m m') : m' = Xfer.applyAll (actXfers me acts) m :=
  run_proc_done hrun h

end ArmciMpi
