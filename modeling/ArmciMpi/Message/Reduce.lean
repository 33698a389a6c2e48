import ArmciMpi.Lib.Combine
import ArmciMpi.Message.Machine
import ArmciMpi.Message.Types
import Mathlib.Algebra.Order.Group.Abs

/-!
# Global operations

`armci_msg_group_gop_scope` reduces vectors over a group. Its operators for the
extreme absolute value take the absolute values of both of their arguments, which
a reduction over one process never calls. The special case for one process goes by
the size of the group, but with `SCOPE_NODE` the reduction is over `MPI_COMM_SELF`
in a group of any size (`gop_abs_iff`).

A vector is the list of its bytes, and `elem` one of its elements.
-/

namespace ArmciMpi

open Lib Stateful Machine

-- ------------------------------
-- Elements
-- ------------------------------

/-- The `i`-th element of `k` bytes. -/
def elem (k i : Nat) (v : List UInt8) : List UInt8 := (v.drop (i * k)).take k

/-- `IABS` on integers of `k` bytes; negating the least of them wraps around. -/
def iabs (k : Nat) (x : List UInt8) : List UInt8 :=
  if signedAt k x > 0 then x else leBytes k ((-signedAt k x) % 2 ^ (8 * k)).toNat

/-- `IABS` and `FABS`. -/
def ElemType.abs (e : ElemType) (x : List UInt8) : List UInt8 :=
  match e with
  | int => iabs 4 x
  | long => iabs 8 x
  | longLong => iabs 8 x
  | float => floatBytes (if floatAt x > 0 then floatAt x else -floatAt x)
  | double => doubleBytes (if doubleAt x > 0 then doubleAt x else -doubleAt x)

/-- `MIN` or `MAX` of the absolute values. -/
def ElemType.absPick (kind : MinMax) (e : ElemType) (x y : List UInt8) : List UInt8 :=
  if e.test kind (e.abs x) (e.abs y) then e.abs x else e.abs y

/-- The body of `ARMCII_Absmin_op` and `ARMCII_Absmax_op`. -/
def absBody (kind : MinMax) (e : ElemType) (len : Nat) (invec inoutvec : List UInt8) :
    Except String (List UInt8) :=
  .ok ((List.range len).flatMap fun i =>
    e.absPick kind (elem e.size i invec) (elem e.size i inoutvec))

def absminOp : ElemType → Nat → List UInt8 → List UInt8 → Except String (List UInt8) := absBody .min

def absmaxOp : ElemType → Nat → List UInt8 → List UInt8 → Except String (List UInt8) := absBody .max

def absvOp (e : ElemType) (len : Nat) (invec : List UInt8) : List UInt8 :=
  (List.range len).flatMap fun i => e.abs (elem e.size i invec)

-- ------------------------------
-- The call
-- ------------------------------

inductive GopOp
  | sum
  | prod
  | max
  | min
  | bor
  | absmax
  | absmin
  | land
  | lor
  | band
  deriving DecidableEq

def gopOp (op : String) : Except String GopOp :=
  if startsAs op "+" then .ok .sum
  else if startsAs op "*" then .ok .prod
  else if startsAs op "max" then .ok .max
  else if startsAs op "min" then .ok .min
  else if startsAs op "or" then .ok .bor
  else if startsAs op "absmax" then .ok .absmax
  else if startsAs op "absmin" then .ok .absmin
  else if startsAs op "land" || startsAs op "&&" then .ok .land
  else if startsAs op "lor" || startsAs op "||" then .ok .lor
  else if startsAs op "band" || startsAs op "&" then .ok .band
  else if startsAs op "bor" || startsAs op "|" then .ok .bor
  else .error ("unknown operation '" ++ op ++ "'")

def MsgType.mpiType : MsgType → Except String ElemType
  | elem e => .ok e
  | other code => .error ("unknown type (" ++ toString code ++ ")")

abbrev GopM := MsgM (GopOp × ElemType) (List UInt8)

def gopReduce (env : Env) (comm : Option Comm) (group : Group) (mpiOp : GopOp) (e : ElemType)
    (n : Nat) (buf : Int) (reply : List UInt8) : GopM Unit := do
  let v ← load env buf (n * e.size)
  if group.size = 1 ∧ (mpiOp = .absmax ∨ mpiOp = .absmin) then
    store env buf (absvOp e n v)
  else
    let out ← allreduce comm (mpiOp, e) v reply
    store env buf (out.take (n * e.size))

/-- `armci_msg_group_gop_scope`; `reply` is what `MPI_Allreduce` delivers. -/
def armciMsgGroupGopScope (env : Env) (scope : Scope) (x : Int) (n : Nat) (op : String)
    (type : MsgType) (group : Group) (reply : List UInt8) : GopM Unit := do
  let mpiOp ← gopOp op
  let mpiType ← type.mpiType
  let bytes ← checkInt (n * mpiType.size : Nat)
  let xBuf ← script env (bufPrepareReadVec env [x] bytes.toNat)
  gopReduce env (scope.comm group.comm env.me) group mpiOp mpiType n (xBuf.headD 0) reply
  script env (bufFinishWriteVec env [x] xBuf bytes.toNat)

-- ------------------------------
-- Elements of vectors
-- ------------------------------

section
variable {k n i : Nat}

theorem flatMap_length {g : Nat → List UInt8} (hg : ∀ i < n, (g i).length = k) :
    ((List.range n).flatMap g).length = n * k := by
  induction n with
  | zero => simp
  | succ n ih =>
    rw [List.range_succ, List.flatMap_append, List.flatMap_singleton, List.length_append,
      ih fun i hi => hg i (Nat.lt_succ_of_lt hi), hg n (Nat.lt_succ_self n), Nat.succ_mul]

theorem elem_flatMap {g : Nat → List UInt8} (hg : ∀ i < n, (g i).length = k) (hi : i < n) :
    elem k i ((List.range n).flatMap g) = g i := by
  induction n with
  | zero => exact absurd hi (Nat.not_lt_zero i)
  | succ n ih =>
    have hg' : ∀ i < n, (g i).length = k := fun i hi => hg i (Nat.lt_succ_of_lt hi)
    have hlen := flatMap_length hg'
    rw [List.range_succ, List.flatMap_append, List.flatMap_singleton]
    rcases Nat.lt_succ_iff_lt_or_eq.mp hi with hlt | rfl
    · have hle : i * k + k ≤ n * k := by
        rw [← Nat.succ_mul]
        exact Nat.mul_le_mul_right k hlt
      rw [← ih hg' hlt, elem, elem, List.drop_append_of_le_length (by omega),
        List.take_append_of_le_length (by rw [List.length_drop]; omega)]
    · rw [elem, ← hlen, List.drop_left, List.take_of_length_le (hg i hi).le]

theorem elem_length {v : List UInt8} (hv : v.length = n * k) (hi : i < n) :
    (elem k i v).length = k := by
  have hle : i * k + k ≤ n * k := by
    rw [← Nat.succ_mul]
    exact Nat.mul_le_mul_right k hi
  rw [elem, List.length_take, List.length_drop, hv]
  omega

theorem elem_bytesAt (m : Mem) (me : Nat) (x : Int) (hi : i < n) :
    elem k i (bytesAt m (me, x) (n * k)) = bytesAt m (me, x + ((i * k : Nat) : Int)) k := by
  have hle : i * k + k ≤ n * k := by
    rw [← Nat.succ_mul]
    exact Nat.mul_le_mul_right k hi
  refine List.ext_getElem ?_ fun j hj hj' => ?_
  · simp only [elem, List.length_take, List.length_drop, bytesAt_length]
    omega
  · simp only [elem, bytesAt, List.getElem_take, List.getElem_drop, List.getElem_map,
      List.getElem_range]
    congr 2
    rw [Int.natCast_add, Int.add_assoc]

-- ------------------------------
-- Absolute values
-- ------------------------------

theorem two_pow_bytes (hk : 0 < k) : 2 ^ (8 * k) = 2 * 2 ^ (8 * k - 1) := by
  rw [← Nat.pow_succ']
  congr 1
  omega

theorem signedAt_range (hk : 0 < k) (x : List UInt8) :
    -((2 ^ (8 * k - 1) : Nat) : Int) ≤ signedAt k x ∧ signedAt k x < ((2 ^ (8 * k - 1) : Nat) : Int) := by
  have hpow := two_pow_bytes hk
  have hpos : 0 < 2 ^ (8 * k) := Nat.two_pow_pos _
  have hle := Int.le_bmod (x := (leVal (x.take k) : Int)) hpos
  have hlt := Int.bmod_lt (x := (leVal (x.take k) : Int)) hpos
  unfold signedAt
  rw [hpow] at hle hlt ⊢
  omega

theorem signedAt_leBytes (k v : Nat) : signedAt k (leBytes k v) = (v : Int).bmod (2 ^ (8 * k)) := by
  have hpow : 256 ^ k = 2 ^ (8 * k) := by rw [Nat.pow_mul]
  rw [signedAt, List.take_of_length_le (leBytes_length k v).le, leVal_leBytes, hpow,
    Int.natCast_emod, Int.emod_bmod]

def NotLeast (k : Nat) (x : List UInt8) : Prop := signedAt k x ≠ -((2 ^ (8 * k - 1) : Nat) : Int)

theorem iabs_length {x : List UInt8} (hx : x.length = k) : (iabs k x).length = k := by
  unfold iabs
  split
  · exact hx
  · exact leBytes_length _ _

theorem signedAt_iabs (hk : 0 < k) {x : List UInt8} (hx : NotLeast k x) :
    signedAt k (iabs k x) = |signedAt k x| := by
  obtain ⟨hge, -⟩ := signedAt_range hk x
  unfold iabs
  split
  · rename_i hpos
    exact (abs_of_pos hpos).symm
  · rename_i hneg
    have hlt : -signedAt k x < ((2 ^ (8 * k - 1) : Nat) : Int) := by
      have : signedAt k x ≠ -((2 ^ (8 * k - 1) : Nat) : Int) := hx
      omega
    have hpow : ((2 ^ (8 * k) : Nat) : Int) = 2 * ((2 ^ (8 * k - 1) : Nat) : Int) := by
      rw [two_pow_bytes hk]
      push_cast
      rfl
    have hmod : (-signedAt k x) % 2 ^ (8 * k) = -signedAt k x := by
      refine Int.emod_eq_of_lt (by omega) ?_
      have hcast : ((2 ^ (8 * k) : Nat) : Int) = 2 ^ (8 * k) := by push_cast; rfl
      omega
    rw [hmod, signedAt_leBytes, Int.toNat_of_nonneg (by omega), abs_of_nonpos (not_lt.mp hneg)]
    exact Int.bmod_eq_of_le (by omega) (by omega)

end

section
variable {e : ElemType} {kind : MinMax} {n i : Nat} {x y : List UInt8}

theorem ElemType.abs_eq (he : e.Signed) (x : List UInt8) : e.abs x = iabs e.size x := by
  cases e with
  | float => exact absurd rfl he.1
  | double => exact absurd rfl he.2
  | _ => rfl

theorem ElemType.absPick_length (he : e.Signed) (hx : x.length = e.size) (hy : y.length = e.size) :
    (e.absPick kind x y).length = e.size := by
  unfold absPick
  rw [e.abs_eq he, e.abs_eq he]
  split
  · exact iabs_length hx
  · exact iabs_length hy

theorem ElemType.signedAt_absPick (he : e.Signed) (hx : NotLeast e.size x)
    (hy : NotLeast e.size y) : signedAt e.size (e.absPick kind x y) =
      pick kind.sign |signedAt e.size x| |signedAt e.size y| := by
  have htest := kind.test_iff |signedAt e.size x| |signedAt e.size y|
  unfold absPick pick
  rw [e.test_eq he, e.abs_eq he, e.abs_eq he, signedAt_iabs e.size_pos hx,
    signedAt_iabs e.size_pos hy]
  split
  · rename_i h
    rw [if_pos (htest.mp h), signedAt_iabs e.size_pos hx]
  · rename_i h
    rw [if_neg (fun hlt => h (htest.mpr hlt)), signedAt_iabs e.size_pos hy]

-- ------------------------------
-- Reductions
-- ------------------------------

/-- A vector of `n` integers that are not the least of their type. -/
structure InRange (e : ElemType) (n : Nat) (v : List UInt8) : Prop where
  length : v.length = n * e.size
  elems : ∀ i < n, NotLeast e.size (elem e.size i v)

/-- The `i`-th integer of a vector. -/
def intAt (e : ElemType) (i : Nat) (v : List UInt8) : Int := signedAt e.size (elem e.size i v)

theorem elem_absBody {u v w : List UInt8} (he : e.Signed) (hu : InRange e n u) (hv : InRange e n v)
    (hw : absBody kind e n u v = .ok w) (hi : i < n) :
    elem e.size i w = e.absPick kind (elem e.size i u) (elem e.size i v) := by
  obtain rfl := Except.ok.inj hw
  exact elem_flatMap (fun j hj => e.absPick_length he (elem_length hu.length hj)
    (elem_length hv.length hj)) hi

theorem intAt_absBody {u v w : List UInt8} (he : e.Signed) (hu : InRange e n u) (hv : InRange e n v)
    (hw : absBody kind e n u v = .ok w) (hi : i < n) :
    intAt e i w = pick kind.sign |intAt e i u| |intAt e i v| := by
  rw [intAt, elem_absBody he hu hv hw hi, e.signedAt_absPick he (hu.elems i hi) (hv.elems i hi)]
  rfl

theorem pick_abs_nonneg (kind : MinMax) (a b : Int) : 0 ≤ pick kind.sign |a| |b| := by
  rcases pick_eq_or kind.sign |a| |b| with h | h
  · rw [h]
    exact abs_nonneg a
  · rw [h]
    exact abs_nonneg b

theorem inRange_absBody {u v w : List UInt8} (he : e.Signed) (hu : InRange e n u)
    (hv : InRange e n v) (hw : absBody kind e n u v = .ok w) : InRange e n w where
  length := by
    obtain rfl := Except.ok.inj hw
    exact flatMap_length fun j hj => e.absPick_length he (elem_length hu.length hj)
      (elem_length hv.length hj)
  elems i hi := by
    have hval := intAt_absBody he hu hv hw hi
    have hnonneg := pick_abs_nonneg kind (intAt e i u) (intAt e i v)
    have hpos : (0 : Int) < ((2 ^ (8 * e.size - 1) : Nat) : Int) :=
      Int.natCast_pos.mpr (Nat.two_pow_pos _)
    unfold NotLeast
    unfold intAt at hval hnonneg
    omega

def Extreme (kind : MinMax) (l : List Int) (v : Int) : Prop := v ∈ l ∧ ∀ u ∈ l, kind.le v u

/-- What MPI may deliver: each integer is the extreme absolute value, up to its sign, which
only a vector that is not combined with another keeps. -/
theorem reduced_elem (he : e.Signed) {l : List (List UInt8)} {r : List UInt8}
    (h : Combines (absBody kind e n) l r) (hl : ∀ v ∈ l, InRange e n v) (hi : i < n) :
    Extreme kind (l.map fun v => |intAt e i v|) |intAt e i r| ∧
      (2 ≤ l.length → 0 ≤ intAt e i r) := by
  have hclosed : ∀ {u v w}, InRange e n u → InRange e n v → absBody kind e n u v = .ok w →
      InRange e n w := fun hu hv hw => inRange_absBody he hu hv hw
  constructor
  · have hmap : Combines (fun a b => .ok (pick kind.sign a b)) (l.map fun v => |intAt e i v|)
        |intAt e i r| := by
      refine h.map hclosed (fun {u v w} hu hv hw => ?_) hl
      rw [intAt_absBody he hu hv hw hi, abs_of_nonneg (pick_abs_nonneg kind _ _)]
    obtain ⟨hmem, hbest⟩ := combines_pick_iff.mp hmap
    exact ⟨hmem, fun u hu => (kind.sign_le_iff _ _).mp (hbest u hu)⟩
  · intro htwo
    obtain ⟨u, v, hu, hv, hw⟩ := h.exists_op hclosed hl htwo
    rw [intAt_absBody he hu hv hw hi]
    exact pick_abs_nonneg kind _ _

theorem elem_absvOp {v : List UInt8} (he : e.Signed) (hv : InRange e n v) (hi : i < n) :
    intAt e i (absvOp e n v) = |intAt e i v| := by
  have hlen : ∀ j < n, (e.abs (elem e.size j v)).length = e.size := fun j hj => by
    rw [e.abs_eq he]
    exact iabs_length (elem_length hv.length hj)
  rw [intAt, absvOp, elem_flatMap hlen hi, e.abs_eq he, signedAt_iabs e.size_pos (hv.elems i hi)]
  rfl

end

-- ------------------------------
-- The participants
-- ------------------------------

namespace MinMax

def absOp : MinMax → ElemType → Nat → List UInt8 → List UInt8 → Except String (List UInt8)
  | min => absminOp
  | max => absmaxOp

def absName : MinMax → String
  | min => "absmin"
  | max => "absmax"

def absGop : MinMax → GopOp
  | min => .absmin
  | max => .absmax

theorem absOp_eq (kind : MinMax) : kind.absOp = absBody kind := by
  cases kind <;> rfl

theorem gopOp_absName (kind : MinMax) : gopOp kind.absName = .ok kind.absGop := by
  cases kind <;> decide

theorem absGop_or (kind : MinMax) : kind.absGop = .absmax ∨ kind.absGop = .absmin := by
  cases kind
  · exact .inr rfl
  · exact .inl rfl

end MinMax

/-- The processes that a scope makes take part with `p`. -/
def Scope.participants (scope : Scope) (c : Comm) (p : Nat) : List Nat :=
  if scope = .node then [p] else c.ranks

theorem Scope.comm_participants (scope : Scope) (c : Comm) (p : Nat) :
    ∃ d, scope.comm (some c) p = some d ∧ d.ranks = scope.participants c p := by
  cases scope
  · exact ⟨c, rfl, rfl⟩
  · exact ⟨commSelf p, rfl, rfl⟩
  · exact ⟨c, rfl, rfl⟩

structure GopProc where
  env : Env
  arena : Set Int
  x : Int
  group : Group
  acts : List Act

namespace GopProc

structure Ok (c : Comm) (p : Nat) (P : GopProc) : Prop where
  me : P.env.me = p
  allocs : P.env.Allocs P.arena
  start : P.x ∉ P.arena
  group : P.group.From P.env.world P.env.cfg c

def input (P : GopProc) (e : ElemType) (n : Nat) (m : Mem) : List UInt8 :=
  bytesAt m (P.env.me, P.x) (n * e.size)

variable {P : GopProc} {c : Comm} {p n : Nat} {e : ElemType} {m : Mem} {reply : List UInt8}

theorem run_gopReduce (hP : P.Ok c p) (scope : Scope) (kind : MinMax) (b : Int)
    (σ : Machine (GopOp × ElemType) (List UInt8)) (hcalls : σ.calls = [])
    (hb : bytesAt σ.mem (P.env.me, b) (n * e.size) = P.input e n m)
    (hreply : reply.length = n * e.size) :
    ∃ σ', gopReduce P.env (scope.comm P.group.comm P.env.me) P.group kind.absGop e n b reply σ =
        .ok ((), σ') ∧
      σ'.mem = writeBytes σ.mem (P.env.me, b)
        (if c.ranks.length = 1 then absvOp e n (P.input e n m) else reply) ∧
      ∀ call ∈ σ'.calls, call.comm.ranks = scope.participants c p ∧ call.op = (kind.absGop, e) ∧
        call.data = P.input e n m := by
  have hload : load P.env b (n * e.size) σ = .ok (P.input e n m, σ) := by rw [load, hb]
  have hsize : P.group.size = 1 ↔ c.ranks.length = 1 := by
    rw [hP.group.size]
    omega
  unfold gopReduce
  rw [bind_ok hload]
  by_cases hone : c.ranks.length = 1
  · rw [if_pos ⟨hsize.mpr hone, kind.absGop_or⟩, if_pos hone]
    refine ⟨_, rfl, rfl, fun call hcall => ?_⟩
    rw [show (_ : List _) = [] from hcalls] at hcall
    exact absurd hcall List.not_mem_nil
  · obtain ⟨d, hd, hranks⟩ := scope.comm_participants c P.env.me
    have hcall : allreduce (scope.comm P.group.comm P.env.me) (kind.absGop, e) (P.input e n m) reply
        σ = .ok (reply, { σ with calls := [⟨d, (kind.absGop, e), P.input e n m⟩] }) := by
      rw [hP.group.comm, hd, allreduce, hcalls]
      rfl
    rw [if_neg (fun h => hone (hsize.mp h.1)), if_neg hone, bind_ok hcall,
      List.take_of_length_le hreply.le]
    refine ⟨_, rfl, rfl, fun call hmem => ?_⟩
    obtain rfl := List.mem_singleton.mp hmem
    exact ⟨by rw [hranks, hP.me], rfl, rfl⟩

theorem run_gop (hP : P.Ok c p) (scope : Scope) (kind : MinMax) (he : e.Signed) (m : Mem)
    (hcan : P.env.CanAlloc (n * e.size)) (hn : ((n * e.size : Nat) : Int) ≤ intMax)
    (hreply : reply.length = n * e.size) :
    ∃ σ, armciMsgGroupGopScope P.env scope P.x n kind.absName (.elem e) P.group reply
        ⟨P.acts, m, []⟩ = .ok ((), σ) ∧
      (∀ call ∈ σ.calls, call.comm.ranks = scope.participants c p ∧ call.op = (kind.absGop, e) ∧
        call.data = P.input e n m) ∧
      bytesAt σ.mem (P.env.me, P.x) (n * e.size) =
        if c.ranks.length = 1 then absvOp e n (P.input e n m) else reply := by
  have htype : (MsgType.elem e).mpiType = .ok e := rfl
  have hbytes : checkInt (n * e.size : Nat) = .ok ((n * e.size : Nat) : Int) :=
    checkInt_eq_ok.mpr ⟨⟨by omega, hn⟩, rfl⟩
  obtain ⟨b, σ₁, hprep, hready⟩ := prepare_run hP.allocs hcan hP.start true
    (⟨P.acts, m, []⟩ : Machine (GopOp × ElemType) (List UInt8))
  rw [if_pos rfl] at hprep
  obtain ⟨σ₂, hreduce, hmem, hcalls⟩ := run_gopReduce hP scope kind b σ₁ hready.calls hready.bytes
    hreply
  have hlen : (if c.ranks.length = 1 then absvOp e n (P.input e n m) else reply).length =
      n * e.size := by
    split
    · refine flatMap_length fun j hj => ?_
      rw [e.abs_eq he]
      exact iabs_length (elem_length (bytesAt_length _ _ _) hj)
    · exact hreply
  obtain ⟨σ, hfinish, hcalls', -, hfinal⟩ := store_finish hready hlen.le hmem
  refine ⟨σ, ?_, ?_, ?_⟩
  · unfold armciMsgGroupGopScope
    rw [bind_ok (lift_ok kind.gopOp_absName _), bind_ok (lift_ok htype _),
      bind_ok (lift_ok hbytes _), Int.toNat_natCast, bind_ok hprep]
    exact (bind_ok hreduce).trans hfinish
  · rw [hcalls']
    exact hcalls
  · refine List.ext_getElem (by simp [hlen]) fun i hi hi' => ?_
    have hi₀ : i < n * e.size := by rw [← hlen]; exact hi'
    simp only [bytesAt, List.getElem_map, List.getElem_range]
    rw [hfinal i hi₀, if_pos hi', List.getD_eq_getElem _ _ hi']

end GopProc

theorem extreme_singleton {kind : MinMax} {a v : Int} : Extreme kind [a] v ↔ v = a := by
  constructor
  · exact fun h => List.mem_singleton.mp h.1
  · rintro rfl
    refine ⟨List.mem_singleton_self v, fun u hu => ?_⟩
    rw [List.mem_singleton.mp hu]
    cases kind <;> exact le_refl v

/-- The call of process `p` returns, has passed on its vector if it took part in a
reduction, and each element of its vector is the extreme absolute value over the
participants. -/
def GopReduced (c : Comm) (procs : Nat → GopProc) (scope : Scope) (kind : MinMax) (e : ElemType)
    (n : Nat) (m : Mem) (reply : List UInt8) (p : Nat) : Prop :=
  ∃ σ, armciMsgGroupGopScope (procs p).env scope (procs p).x n kind.absName (.elem e)
      (procs p).group reply ⟨(procs p).acts, m, []⟩ = .ok ((), σ) ∧
    (∀ call ∈ σ.calls, call.comm.ranks = scope.participants c p ∧ call.op = (kind.absGop, e) ∧
      call.data = (procs p).input e n m) ∧
    ∀ i < n, Extreme kind
      ((scope.participants c p).map fun q => |intAt e i ((procs q).input e n m)|)
      (signedAt e.size (bytesAt σ.mem (p, (procs p).x + ((i * e.size : Nat) : Int)) e.size))

section
variable {c : Comm} {procs : Nat → GopProc} {scope : Scope} {kind : MinMax} {e : ElemType} {n p : Nat}
  {m : Mem} {reply : List UInt8}

theorem extreme_iff (he : e.Signed) (hp : p ∈ c.ranks)
    (hin : ∀ q ∈ c.ranks, InRange e n ((procs q).input e n m))
    (hreply : Combines (absBody kind e n)
      ((scope.participants c p).map fun q => (procs q).input e n m) reply) :
    (∀ i < n, Extreme kind
      ((scope.participants c p).map fun q => |intAt e i ((procs q).input e n m)|)
      (intAt e i (if c.ranks.length = 1 then absvOp e n ((procs p).input e n m) else reply))) ↔
    scope ≠ .node ∨ c.ranks.length = 1 ∨ ∀ i < n, 0 ≤ intAt e i ((procs p).input e n m) := by
  by_cases hone : c.ranks.length = 1
  · have hranks : scope.participants c p = [p] := by
      obtain ⟨q, hq⟩ := List.length_eq_one_iff.mp hone
      rw [hq, List.mem_singleton] at hp
      rw [Scope.participants, hq, hp, ite_self]
    refine iff_of_true (fun i hi => ?_) (.inr (.inl hone))
    rw [if_pos hone, hranks, List.map_singleton, extreme_singleton]
    exact elem_absvOp he (hin p hp) hi
  · rw [if_neg hone]
    by_cases hnode : scope = .node
    · have hranks : scope.participants c p = [p] := if_pos hnode
      rw [hranks] at hreply ⊢
      rw [hreply.of_one List.map_singleton]
      simp only [List.map_singleton, extreme_singleton, hnode, hone, ne_eq, not_true, false_or]
      exact forall_congr' fun i => imp_congr_right fun _ => eq_comm.trans abs_eq_self
    · have hranks : scope.participants c p = c.ranks := if_neg hnode
      refine iff_of_true (fun i hi => ?_) (.inl hnode)
      rw [hranks] at hreply ⊢
      have htwo : 2 ≤ (c.ranks.map fun q => (procs q).input e n m).length := by
        have := List.length_pos_of_mem hp
        rw [List.length_map]
        omega
      obtain ⟨hext, hnonneg⟩ := reduced_elem he hreply
        (fun v hv => by
          obtain ⟨q, hq, rfl⟩ := List.mem_map.mp hv
          exact hin q hq) hi
      rw [List.map_map, abs_of_nonneg (hnonneg htwo)] at hext
      exact hext

end

/-- All members of a group call with an absolute operator. Afterwards the elements of a
process are the extreme absolute values over the participants exactly if the scope is
not one node, or the group has one member, or no element of the process is negative. The
bytes of a vector have to fit an `int`. -/
theorem gop_abs_iff (c : Comm) (procs : Nat → GopProc) (hprocs : ∀ p ∈ c.ranks, (procs p).Ok c p)
    (scope : Scope) (kind : MinMax) (e : ElemType) (he : e.Signed) (n : Nat) (m : Mem)
    (hcan : n = 0 → ∀ p ∈ c.ranks, (procs p).env.CanAlloc 0)
    (hleast : ∀ p ∈ c.ranks, ∀ i < n, NotLeast e.size (elem e.size i ((procs p).input e n m)))
    (reply : Nat → List UInt8) (hreply : ∀ p ∈ c.ranks, Combines (kind.absOp e n)
      ((scope.participants c p).map fun q => (procs q).input e n m) (reply p)) :
    ∀ p ∈ c.ranks, GopReduced c procs scope kind e n m (reply p) p ↔
      ((n * e.size : Nat) : Int) ≤ intMax ∧ (scope ≠ .node ∨ c.ranks.length = 1 ∨
        ∀ i < n, 0 ≤ intAt e i ((procs p).input e n m)) := by
  intro p hp
  have hin : ∀ q ∈ c.ranks, InRange e n ((procs q).input e n m) := fun q hq =>
    ⟨bytesAt_length _ _ _, hleast q hq⟩
  have hcomb := hreply p hp
  rw [kind.absOp_eq] at hcomb
  have hpart : ∀ v ∈ (scope.participants c p).map fun q => (procs q).input e n m, InRange e n v := by
    intro v hv
    obtain ⟨q, hq, rfl⟩ := List.mem_map.mp hv
    refine hin q ?_
    unfold Scope.participants at hq
    split at hq
    · rw [List.mem_singleton.mp hq]
      exact hp
    · exact hq
  have hlen : (reply p).length = n * e.size :=
    (hcomb.closed (fun hu hv hw => inRange_absBody he hu hv hw) hpart).length
  by_cases hn : ((n * e.size : Nat) : Int) ≤ intMax
  · have hbuf : (procs p).env.CanAlloc (n * e.size) := (hprocs p hp).allocs.canAlloc_of
      fun hzero => hcan ((Nat.mul_eq_zero.mp hzero).resolve_right e.size_pos.ne') p hp
    obtain ⟨σ, hrun, hcalls, hbytes⟩ := GopProc.run_gop (hprocs p hp) scope kind he m hbuf hn hlen
    rw [(hprocs p hp).me] at hbytes
    have hval : ∀ i < n, signedAt e.size
        (bytesAt σ.mem (p, (procs p).x + ((i * e.size : Nat) : Int)) e.size) =
        intAt e i (if c.ranks.length = 1 then absvOp e n ((procs p).input e n m) else reply p) := by
      intro i hi
      rw [← hbytes, intAt, elem_bytesAt _ _ _ hi]
    rw [and_iff_right hn, ← extreme_iff he hp hin hcomb]
    constructor
    · rintro ⟨σ', hrun', -, hext⟩ i hi
      obtain rfl : σ = σ' := by rw [hrun] at hrun'; cases hrun'; rfl
      rw [← hval i hi]
      exact hext i hi
    · intro hext
      refine ⟨σ, hrun, hcalls, fun i hi => ?_⟩
      rw [hval i hi]
      exact hext i hi
  · refine iff_of_false ?_ fun h => hn h.1
    rintro ⟨σ, hrun, -⟩
    obtain ⟨mpiOp, σ₁, -, hrun⟩ := bind_eq_ok hrun
    obtain ⟨mpiType, σ₂, htype, hrun⟩ := bind_eq_ok hrun
    cases htype
    obtain ⟨bytes, σ₃, hbytes, -⟩ := bind_eq_ok hrun
    have hover : checkInt (n * e.size : Nat) = .error "integer overflow" := if_neg fun h => hn h.2
    rw [hover] at hbytes
    cases hbytes

def gopPair (p : Nat) : GopProc where
  env := pairEnv copyState (if p = 0 then ⟨0, Nat.two_pos⟩ else ⟨1, Nat.one_lt_two⟩) 0
  arena := highArena
  x := if p = 0 then 4096 else 8192
  group := groupInitFromComm (pairWorldAt (if p = 0 then ⟨0, Nat.two_pos⟩ else ⟨1, Nat.one_lt_two⟩))
    copyState pairWorld.comm ⟨some pairWorld.comm, none, 0, 0, none, none⟩
  acts := []

def minusOnes : Mem := fun _ => 255

theorem gopPair_ok : ∀ p ∈ [0, 1], (gopPair p).Ok pairWorld.comm p := by
  have hfrom : ∀ r : Fin 2, (groupInitFromComm (pairWorldAt r) copyState pairWorld.comm
      ⟨some pairWorld.comm, none, 0, 0, none, none⟩).From (pairWorldAt r) copyState
        pairWorld.comm :=
    fun r => ⟨show ∀ q ∈ [0, 1], q < 2 by decide, _, _, rfl, rfl⟩
  intro p hp
  rcases List.mem_pair.mp hp with rfl | rfl
  · exact ⟨rfl, pairEnv_allocs _ _ _, show ¬ (2 ^ 20 : Int) ≤ 4096 by decide, hfrom _⟩
  · exact ⟨rfl, pairEnv_allocs _ _ _, show ¬ (2 ^ 20 : Int) ≤ 8192 by decide, hfrom _⟩

/-- With `SCOPE_NODE` in a group of two, -1 stays -1. -/
theorem gop_abs_node : Combines (MinMax.max.absOp .int 1)
      ((Scope.node.participants pairWorld.comm 0).map fun q => (gopPair q).input .int 1 minusOnes)
      [255, 255, 255, 255] ∧
    ∃ σ, armciMsgGroupGopScope (gopPair 0).env .node 4096 1 "absmax" (.elem .int) (gopPair 0).group
        [255, 255, 255, 255] ⟨[], minusOnes, []⟩ = .ok ((), σ) ∧
      signedAt 4 (bytesAt σ.mem (0, 4096) 4) = -1 :=
  ⟨.one _, _, rfl, by decide⟩

theorem gop_abs_iff_all :
    GopReduced pairWorld.comm gopPair .all .max .int 1 minusOnes [1, 0, 0, 0] 0 := by
  refine (gop_abs_iff pairWorld.comm gopPair gopPair_ok .all .max .int ⟨by decide, by decide⟩ 1
    minusOnes (fun h => by cases h) ?_ (fun _ => [1, 0, 0, 0]) (fun _ _ => ?_) 0 (by decide)).mpr
    ⟨by decide, .inl (by decide)⟩
  · intro p hp i hi
    obtain rfl : i = 0 := by omega
    exact show signedAt 4 [255, 255, 255, 255] ≠ -(2 ^ 31 : Int) by decide
  · exact .join (.one [255, 255, 255, 255]) (.one [255, 255, 255, 255])
      (by decide +kernel)

end ArmciMpi
