import ArmciMpi.Atomics.Rmw

/-!
# The range assertions of the accessors

`gmr_put_typed`, `gmr_get_typed`, `gmr_accumulate_typed` and
`gmr_get_accumulate_typed` check where the transfer starts and where it ends, in
`long` arithmetic that wraps around here. `gmr_fetch_and_op` checks twice where its
element starts. `accessors_sound_iff` says when what passes the assertions lies in the
slice: for the typed accessors unless the end wraps around, for `gmr_fetch_and_op` unless
the element starts in the slice and less than its size before the end.
-/

namespace ArmciMpi

open Lib Script

structure Target where
  win : Win
  rank : Int
  disp : Int

/-- The displacement as a `gmr_size_t`. -/
def Gmr.dispLong (mreg : Gmr) (proc : Nat) (rem : Int) : Int :=
  if rem = 0 then 0 else i64 (rem - (mreg.slice proc).base)

def typedTarget {A : Type} (env : Env) (mreg : Gmr) (rem : Int) (count : Nat) (type : Dtype)
    (proc : Nat) : Script A Target := do
  let grpProc ← lift (translateAbsoluteToGroup env.world mreg.group proc)
  require (0 ≤ grpProc) "grp_proc >= 0"
  let win ← lift mreg.getWindow
  let disp := mreg.dispLong proc rem
  require (0 ≤ disp ∧ disp < (mreg.slice proc).size) "Invalid remote address"
  require (i64 (disp + i64 (count * type.trueExtent)) ≤ (mreg.slice proc).size)
    "Transfer is out of range"
  return ⟨win, grpProc, disp⟩

/-- The assertions of `gmr_fetch_and_op`. -/
def elemTarget {A : Type} (env : Env) (mreg : Gmr) (dst : Int) (proc : Nat) : Script A Target := do
  let grpProc ← lift (translateAbsoluteToGroup env.world mreg.group proc)
  require (0 ≤ grpProc) "grp_proc >= 0"
  let win ← lift mreg.getWindow
  let disp := i64 (dst - (mreg.slice proc).base)
  require (0 ≤ disp ∧ disp < (mreg.slice proc).size) "Invalid remote address"
  require (disp ≤ (mreg.slice proc).size) "Transfer is out of range"
  return ⟨win, grpProc, disp⟩

/-- `gmr_put_typed`, `gmr_get_typed` and `gmr_accumulate_typed`. -/
def gmrRmaTypedLong (env : Env) (kind : RmaKind) (atomic : Bool) (mreg : Gmr)
    (loc : Int) (locCount : Nat) (locType : Dtype)
    (rem : Int) (remCount : Nat) (remType : Dtype)
    (proc : Nat) (handle : Option Nat) : Script Act Unit := do
  let target ← typedTarget env mreg rem remCount remType proc
  emit (.rma
    { kind, atomic
      win := target.win
      request := if env.cfg.useRmaRequests then handle else none
      target := target.rank
      origin := loc, originCount := locCount, originType := locType
      disp := target.disp, targetCount := remCount, targetType := remType })
  match handle with
  | some h => if env.cfg.useRmaRequests then pure () else emit (.setTarget h target.rank)
  | none => pure ()

def gmrPutTypedLong (env : Env) (mreg : Gmr) (src : Int) (srcCount : Nat) (srcType : Dtype)
    (dst : Int) (dstCount : Nat) (dstType : Dtype) (proc : Nat) (handle : Option Nat) :
    Script Act Unit :=
  gmrRmaTypedLong env .put env.cfg.rmaAtomicity mreg src srcCount srcType dst dstCount dstType proc
    handle

def gmrGetTypedLong (env : Env) (mreg : Gmr) (src : Int) (srcCount : Nat) (srcType : Dtype)
    (dst : Int) (dstCount : Nat) (dstType : Dtype) (proc : Nat) (handle : Option Nat) :
    Script Act Unit :=
  gmrRmaTypedLong env .get env.cfg.rmaAtomicity mreg dst dstCount dstType src srcCount srcType proc
    handle

def gmrAccumulateTypedLong (env : Env) (mreg : Gmr) (src : Int) (srcCount : Nat) (srcType : Dtype)
    (dst : Int) (dstCount : Nat) (dstType : Dtype) (proc : Nat) (handle : Option Nat) :
    Script Act Unit :=
  gmrRmaTypedLong env .acc false mreg src srcCount srcType dst dstCount dstType proc handle

/-- One call of `MPI_Get_accumulate`, with a request if a handle records it. -/
structure GetAccumulate (O : Type) where
  request : Option Nat
  target : Target
  origin : Int
  originCount : Nat
  originType : Dtype
  result : Int
  resultCount : Nat
  resultType : Dtype
  targetCount : Nat
  targetType : Dtype
  op : O

/-- What `gmr_get_accumulate_typed` does. -/
inductive GetAccAct (O : Type)
  | getAccumulate (call : GetAccumulate O)
  | setTarget (handle : Nat) (target : Int)

def gmrGetAccumulateTyped {O : Type} (env : Env) (mreg : Gmr)
    (src : Int) (srcCount : Nat) (srcType : Dtype) (out : Int) (outCount : Nat) (outType : Dtype)
    (dst : Int) (dstCount : Nat) (dstType : Dtype) (op : O) (proc : Nat) (handle : Option Nat) :
    Script (GetAccAct O) Unit := do
  let target ← typedTarget env mreg dst dstCount dstType proc
  emit (.getAccumulate
    { request := if env.cfg.useRmaRequests then handle else none
      target, op
      origin := src, originCount := srcCount, originType := srcType
      result := out, resultCount := outCount, resultType := outType
      targetCount := dstCount, targetType := dstType })
  match handle with
  | some h => if env.cfg.useRmaRequests then pure () else emit (.setTarget h target.rank)
  | none => pure ()

def gmrFetchAndOpLong (env : Env) (cfg : AtomicSettings) (mreg : Gmr) (dst : Int)
    (type : BaseType) (op : AtomicOp) (proc : Nat) : Script RmwAct Unit := do
  let target ← elemTarget env mreg dst proc
  let a : Atomic := ⟨target.win, target.rank, target.disp, type, op⟩
  emit (.atomic cfg.useRequestAtomics a)
  forEach emit (completion env cfg a)

-- ------------------------------
-- What is accessed
-- ------------------------------

structure Access where
  disp : Int
  count : Nat
  type : Dtype

def Access.In (x : Access) (size : Int) : Prop :=
  ∀ d ∈ x.type.elems x.count, ∀ byte, x.disp + d ≤ byte → byte < x.disp + d + x.type.elemSize →
    0 ≤ byte ∧ byte < size

def Access.stop (x : Access) : Int := x.disp + x.count * x.type.trueExtent

def Act.accesses : Act → List Access
  | .rma op => [⟨op.disp, op.targetCount, op.targetType⟩]
  | _ => []

def GetAccAct.accesses {O : Type} : GetAccAct O → List Access
  | .getAccumulate call => [⟨call.target.disp, call.targetCount, call.targetType⟩]
  | .setTarget .. => []

def RmwAct.accesses : RmwAct → List Access
  | .atomic _ a => [⟨a.disp, 1, .predefined a.type⟩]
  | _ => []

/-- Where an accessor returns it makes one access, which lies in the slice exactly under the
condition. -/
def SoundIff {A : Type} (accesses : A → List Access) (p : Script A Unit) (size : Int)
    (cond : Access → Prop) : Prop :=
  ∀ h acts, p h = (.ok (), acts) → ∃ x, acts.flatMap accesses = [x] ∧ (x.In size ↔ cond x)

/-- Where an accessor returns it makes one access, and that lies in the slice. -/
def Sound {A : Type} (accesses : A → List Access) (p : Script A Unit) (size : Int) : Prop :=
  ∀ h acts, p h = (.ok (), acts) → ∃ x, acts.flatMap accesses = [x] ∧ x.In size

/-- A predefined type, or one item of a type that starts at 0. -/
def StartsAtZero (count : Nat) (type : Dtype) : Prop :=
  (∃ b, type = .predefined b) ∨ count = 1 ∧ type.trueLb = 0

/-- The elements reach from 0 to `count` extents. -/
structure Spans (count : Nat) (type : Dtype) : Prop where
  nonneg : 0 ≤ count * type.trueExtent
  bounds : ∀ d ∈ type.elems count, 0 ≤ d ∧ d + type.elemSize ≤ count * type.trueExtent
  last : 0 < count * type.trueExtent →
    ∃ d ∈ type.elems count, d + type.elemSize = count * type.trueExtent

theorem foldl_max_mem (l : List Int) (a : Int) : l.foldl max a = a ∨ l.foldl max a ∈ l := by
  induction l generalizing a with
  | nil => exact .inl rfl
  | cons x l ih =>
    rcases ih (max a x) with h | h
    · rw [List.foldl_cons, h]
      rcases max_choice a x with hmax | hmax
      · exact .inl hmax
      · exact .inr (by rw [hmax]; exact List.mem_cons_self)
    · exact .inr (List.mem_cons_of_mem x h)

theorem spans_predefined (b : BaseType) (count : Nat) : Spans count (.predefined b) := by
  have helem : (Dtype.predefined b).elemSize = b.size := rfl
  have hend : ∀ j : Nat, (j : Int) * b.size + b.size = ((j + 1) * b.size : Nat) := by
    intro j
    rw [Nat.succ_mul, Int.natCast_add, Int.natCast_mul]
  refine ⟨?_, ?_, ?_⟩ <;> rw [trueExtent_predefined, ← Int.natCast_mul]
  · exact Int.natCast_nonneg _
  · rw [elems_predefined]
    intro d hd
    obtain ⟨j, hj, rfl⟩ := List.mem_map.mp hd
    have hle := Nat.mul_le_mul_right b.size (Nat.succ_le_of_lt (List.mem_range.mp hj))
    rw [helem, hend]
    exact ⟨by exact_mod_cast Nat.zero_le (j * b.size), by exact_mod_cast hle⟩
  · intro hpos
    obtain ⟨n, rfl⟩ : ∃ n, count = n + 1 :=
      Nat.exists_eq_succ_of_ne_zero fun hzero => by simp [hzero] at hpos
    refine ⟨n * b.size, ?_, hend n⟩
    rw [elems_predefined]
    exact List.mem_map_of_mem (List.mem_range.mpr (Nat.lt_succ_self n))

theorem spans_one {type : Dtype} (hlb : type.trueLb = 0) : Spans 1 type := by
  have hextent : ((1 : Nat) : Int) * type.trueExtent = type.trueUb := by
    rw [Nat.cast_one, Int.one_mul, Dtype.trueExtent, hlb, Int.sub_zero]
  have hub : type.disps ≠ [] →
      type.trueUb = type.disps.foldl max (type.disps.headD 0) + type.elemSize :=
    fun hne => if_neg hne
  have hbounds : ∀ d ∈ type.disps, 0 ≤ d ∧ d + type.elemSize ≤ type.trueUb := by
    intro d hd
    have hmin : type.trueLb ≤ d := foldl_min_le (.inr hd)
    have hmax : d ≤ type.disps.foldl max (type.disps.headD 0) := le_foldl_max (.inr hd)
    rw [hub (List.ne_nil_of_mem hd)]
    exact ⟨by omega, by omega⟩
  cases hdisps : type.disps with
  | nil =>
    have hzero : type.trueUb = 0 := if_pos hdisps
    refine ⟨by rw [hextent, hzero], ?_, by rw [hextent, hzero]; exact fun h => absurd h (by decide)⟩
    rw [elems_one, hdisps]
    exact fun d hd => absurd hd List.not_mem_nil
  | cons d ds =>
    have hmem : d ∈ type.disps := by rw [hdisps]; exact List.mem_cons_self
    have hfirst := hbounds d hmem
    refine ⟨by rw [hextent]; omega, by rwa [elems_one, hextent], fun _ => ?_⟩
    rw [elems_one, hextent, hub (List.ne_nil_of_mem hmem)]
    refine ⟨_, ?_, rfl⟩
    rcases foldl_max_mem type.disps (type.disps.headD 0) with h | h
    · rw [h, hdisps]
      exact List.mem_cons_self
    · exact h

theorem StartsAtZero.spans {count : Nat} {type : Dtype} (h : StartsAtZero count type) :
    Spans count type := by
  rcases h with ⟨b, rfl⟩ | ⟨rfl, hlb⟩
  · exact spans_predefined b count
  · exact spans_one hlb

theorem Access.in_iff {x : Access} {size : Int} (hspans : Spans x.count x.type) (hpos : 0 ≤ x.disp)
    (hlt : x.disp < size) : x.In size ↔ x.stop ≤ size := by
  have hsize : (0 : Int) < x.type.elemSize := Int.natCast_pos.mpr x.type.base.size_pos
  constructor
  · intro hin
    by_cases hzero : 0 < x.count * x.type.trueExtent
    · obtain ⟨d, hd, hlast⟩ := hspans.last hzero
      have hbyte := (hin d hd (x.disp + d + x.type.elemSize - 1) (by omega) (by omega)).2
      unfold Access.stop
      omega
    · unfold Access.stop
      omega
  · intro hstop d hd byte hle hbyte
    have hbounds := hspans.bounds d hd
    unfold Access.stop at hstop
    exact ⟨by omega, by omega⟩

-- ------------------------------
-- The assertions
-- ------------------------------

section
variable {A : Type} {env : Env} {mreg : Gmr} {proc : Nat} {rem : Int} {count : Nat} {type : Dtype}
  {t : Target} {h acts : List A}

theorem typedTarget_eq_ok (hrun : typedTarget env mreg rem count type proc h = (.ok t, acts)) :
    acts = [] ∧ 0 ≤ t.disp ∧ t.disp < (mreg.slice proc).size ∧
      i64 (t.disp + count * type.trueExtent) ≤ (mreg.slice proc).size := by
  obtain ⟨grpProc, -, hrun⟩ := lift_bind_eq_ok.mp hrun
  obtain ⟨-, hrun⟩ := require_bind_eq_ok.mp hrun
  obtain ⟨win, -, hrun⟩ := lift_bind_eq_ok.mp hrun
  obtain ⟨hstart, hrun⟩ := require_bind_eq_ok.mp hrun
  obtain ⟨hstop, hrun⟩ := require_bind_eq_ok.mp hrun
  obtain ⟨ht, rfl⟩ := Prod.mk.inj hrun
  obtain rfl := Except.ok.inj ht
  rw [i64_add_i64] at hstop
  exact ⟨rfl, hstart.1, hstart.2, hstop⟩

theorem elemTarget_eq_ok {dst : Int} (hrun : elemTarget env mreg dst proc h = (.ok t, acts)) :
    0 ≤ i64 (dst - (mreg.slice proc).base) ∧
      i64 (dst - (mreg.slice proc).base) < (mreg.slice proc).size := by
  obtain ⟨grpProc, -, hrun⟩ := lift_bind_eq_ok.mp hrun
  obtain ⟨-, hrun⟩ := require_bind_eq_ok.mp hrun
  obtain ⟨win, -, hrun⟩ := lift_bind_eq_ok.mp hrun
  obtain ⟨hstart, -⟩ := require_bind_eq_ok.mp hrun
  exact hstart

/-- What passes the assertions of a typed accessor lies in the slice unless the end is beyond
the largest `long`. -/
theorem typedTarget_in_iff (hsize : (mreg.slice proc).size ≤ longMax)
    (htype : StartsAtZero count type)
    (hrun : typedTarget env mreg rem count type proc h = (.ok t, acts)) :
    acts = [] ∧ (Access.In ⟨t.disp, count, type⟩ (mreg.slice proc).size ↔
      Access.stop ⟨t.disp, count, type⟩ ≤ longMax) := by
  obtain ⟨hacts, hpos, hlt, hstop⟩ := typedTarget_eq_ok hrun
  have hspans := htype.spans
  have hnonneg := hspans.nonneg
  refine ⟨hacts, ?_⟩
  rw [Access.in_iff hspans hpos hlt]
  refine ⟨fun hin => hin.trans hsize, fun hmax => ?_⟩
  unfold Access.stop at hmax ⊢
  dsimp only at hmax ⊢
  rwa [i64_of_range (by omega) hmax] at hstop

theorem soundIff_of_emit {accesses : A → List Access} {check : Script A Target}
    {call : Target → A} {tail : Target → Script A Unit} {access : Target → Access} {size : Int}
    {cond : Access → Prop} (hcall : ∀ t, accesses (call t) = [access t])
    (htail : ∀ t, Emits (fun a => accesses a = []) (tail t))
    (hin : ∀ h t acts, check h = (.ok t, acts) →
      acts = [] ∧ ((access t).In size ↔ cond (access t))) :
    SoundIff accesses (do let t ← check; emit (call t); tail t) size cond := by
  intro h acts hrun
  obtain ⟨t, checked, rest, hcheck, hcalls, hacts⟩ := bind_eq_ok.mp hrun
  obtain ⟨rfl, hiff⟩ := hin h t checked hcheck
  rw [emit_bind_run] at hcalls
  obtain rfl := (Prod.mk.inj hcalls).2
  refine ⟨access t, ?_, hiff⟩
  rw [hacts, List.nil_append, List.flatMap_cons, hcall, List.flatMap_eq_nil_iff.mpr (htail t _)]
  rfl

theorem gmrRmaTypedLong_sound (hsize : (mreg.slice proc).size ≤ longMax)
    (htype : StartsAtZero count type) (kind : RmaKind) (atomic : Bool) (loc : Int) (locCount : Nat)
    (locType : Dtype) (handle : Option Nat) :
    SoundIff Act.accesses
      (gmrRmaTypedLong env kind atomic mreg loc locCount locType rem count type proc handle)
      (mreg.slice proc).size (·.stop ≤ longMax) := by
  refine soundIff_of_emit (fun t => rfl) (fun t => ?_) fun h t acts =>
    typedTarget_in_iff hsize htype
  cases handle with
  | none => exact emits_pure _
  | some hd => exact emits_ite (fun _ => emits_pure _) fun _ => emits_emit rfl

theorem gmrGetAccumulateTyped_sound {O : Type} (hsize : (mreg.slice proc).size ≤ longMax)
    (htype : StartsAtZero count type) (src : Int) (srcCount : Nat) (srcType : Dtype) (out : Int)
    (outCount : Nat) (outType : Dtype) (op : O) (handle : Option Nat) :
    SoundIff GetAccAct.accesses
      (gmrGetAccumulateTyped env mreg src srcCount srcType out outCount outType rem count type op
        proc handle)
      (mreg.slice proc).size (·.stop ≤ longMax) := by
  refine soundIff_of_emit (fun t => rfl) (fun t => ?_) fun h t acts =>
    typedTarget_in_iff hsize htype
  cases handle with
  | none => exact emits_pure _
  | some hd => exact emits_ite (fun _ => emits_pure _) fun _ => emits_emit rfl

-- ------------------------------
-- Exact integers
-- ------------------------------

theorem i64_in_slice {base addr size : Int} (hbase : 0 ≤ base) (hend : base + size ≤ 2 ^ 64)
    (hsize : size ≤ longMax) (haddr : 0 ≤ addr) (haddr' : addr < 2 ^ 64) :
    (0 ≤ i64 (addr - base) ∧ i64 (addr - base) < size ↔ 0 ≤ addr - base ∧ addr - base < size) ∧
      (0 ≤ addr - base ∧ addr - base < size → i64 (addr - base) = addr - base) := by
  unfold i64 longMax at *
  rw [Int.bmod_def]
  split <;> omega

structure Slice.Wide (x : Slice) : Prop where
  base : 0 ≤ x.base
  stop : x.base + x.size ≤ 2 ^ 64
  size : x.size ≤ longMax

/-- The typed accessors are those of exact integers while no end is beyond the largest
`long`. -/
theorem gmrRmaTypedLong_eq (hwide : (mreg.slice proc).Wide) (hrem : 0 ≤ rem) (hrem' : rem < 2 ^ 64)
    (hnonneg : 0 ≤ count * type.trueExtent)
    (hstop : mreg.disp proc rem < (mreg.slice proc).size →
      mreg.disp proc rem + count * type.trueExtent ≤ longMax)
    (kind : RmaKind) (atomic : Bool) (loc : Int) (locCount : Nat) (locType : Dtype)
    (handle : Option Nat) :
    gmrRmaTypedLong env kind atomic mreg loc locCount locType rem count type proc handle =
      gmrRmaTyped env kind atomic mreg loc locCount locType rem count type proc handle := by
  have hdisp : (0 ≤ mreg.dispLong proc rem ∧ mreg.dispLong proc rem < (mreg.slice proc).size ↔
      0 ≤ mreg.disp proc rem ∧ mreg.disp proc rem < (mreg.slice proc).size) ∧
      (0 ≤ mreg.disp proc rem ∧ mreg.disp proc rem < (mreg.slice proc).size →
        mreg.dispLong proc rem = mreg.disp proc rem) := by
    unfold Gmr.dispLong Gmr.disp
    split
    · exact ⟨Iff.rfl, fun _ => rfl⟩
    · exact i64_in_slice hwide.base hwide.stop hwide.size hrem hrem'
  simp only [gmrRmaTypedLong, gmrRmaTyped, typedTarget, bind_assoc_run, pure_bind_run]
  by_cases hin : 0 ≤ mreg.disp proc rem ∧ mreg.disp proc rem < (mreg.slice proc).size
  · rewrite [hdisp.2 hin, i64_add_i64, i64_of_range (by omega) (hstop hin.2)]
    rfl
  · have hout := fun h => hin (hdisp.1.mp h)
    simp only [require_false hin, require_false hout, abort_bind]

theorem emit_completion (cfg : AtomicSettings) (a : Atomic) :
    (do emit (RmwAct.atomic cfg.useRequestAtomics a); forEach emit (completion env cfg a)) =
      (if cfg.useRequestAtomics then do
        emit (.atomic true a)
        emit .wait
        if a.op = .replace ∨ cfg.flushRequestAtomics then emit (.flush a.win a.target) else pure ()
      else do
        emit (.atomic false a)
        if env.cfg.endToEndFlush then emit (.flush a.win a.target)
        else emit (.flushLocal a.win a.target)) := by
  funext h
  cases huse : cfg.useRequestAtomics with
  | true =>
    by_cases hflush : a.op = .replace ∨ cfg.flushRequestAtomics <;>
      simp [completion, huse, hflush, forEach]
  | false =>
    cases hend : env.cfg.endToEndFlush <;> simp [completion, huse, hend, forEach]

theorem gmrFetchAndOpLong_eq (hwide : (mreg.slice proc).Wide) (hrem : 0 ≤ rem)
    (hrem' : rem < 2 ^ 64) (cfg : AtomicSettings) (b : BaseType) (op : AtomicOp) :
    gmrFetchAndOpLong env cfg mreg rem b op proc = gmrFetchAndOp env cfg mreg rem b op proc := by
  have hdisp := i64_in_slice hwide.base hwide.stop hwide.size hrem hrem'
  simp only [gmrFetchAndOpLong, gmrFetchAndOp, elemTarget, bind_assoc_run, pure_bind_run]
  by_cases hin : 0 ≤ rem - (mreg.slice proc).base ∧
      rem - (mreg.slice proc).base < (mreg.slice proc).size
  · rw [hdisp.2 hin]
    simp only [emit_completion]
  · have hout := fun h => hin (hdisp.1.mp h)
    simp only [require_false hin, require_false hout, abort_bind]

theorem fetch_accesses (cfg : AtomicSettings) (request : Bool) (a : Atomic) :
    (RmwAct.atomic request a :: completion env cfg a).flatMap RmwAct.accesses =
      [⟨a.disp, 1, .predefined a.type⟩] := by
  have hrest : (completion env cfg a).flatMap RmwAct.accesses = [] := by
    refine List.flatMap_eq_nil_iff.mpr fun b hb => ?_
    cases b with
    | atomic r c => exact absurd rfl (completion_not_atomic _ hb r c)
    | _ => rfl
  rw [List.flatMap_cons, hrest]
  rfl

/-- `gmr_fetch_and_op` does not look at where its element ends: it is sound for an address
unless the element starts in the slice and ends behind it. -/
theorem gmrFetchAndOpLong_sound_iff {win : Win} {g : Nat} (hr : Reaches env mreg proc win g)
    (hwide : (mreg.slice proc).Wide) (hrem : 0 ≤ rem) (hrem' : rem < 2 ^ 64) (cfg : AtomicSettings)
    (b : BaseType) (op : AtomicOp) :
    Sound RmwAct.accesses (gmrFetchAndOpLong env cfg mreg rem b op proc) (mreg.slice proc).size ↔
      ¬ ((mreg.slice proc).base ≤ rem ∧
        (mreg.slice proc).base + (mreg.slice proc).size - b.size < rem ∧
        rem < (mreg.slice proc).base + (mreg.slice proc).size) := by
  have hstop : Access.stop ⟨rem - (mreg.slice proc).base, 1, .predefined b⟩ =
      rem - (mreg.slice proc).base + b.size := by
    rw [Access.stop, trueExtent_predefined, Nat.cast_one, Int.one_mul]
  have hin : (mreg.slice proc).Contains rem →
      (Access.In ⟨rem - (mreg.slice proc).base, 1, .predefined b⟩ (mreg.slice proc).size ↔
        rem - (mreg.slice proc).base + b.size ≤ (mreg.slice proc).size) := by
    rintro ⟨hle, hlt⟩
    rw [← hstop]
    exact Access.in_iff (spans_predefined b 1) (by dsimp only; omega) (by dsimp only; omega)
  constructor
  · rintro hsound ⟨hle, hgap, hlt⟩
    have hrun : gmrFetchAndOpLong env cfg mreg rem b op proc [] = _ :=
      congrFun (gmrFetchAndOpLong_eq hwide hrem hrem' cfg b op) []
    rw [gmrFetchAndOp_ok hr ⟨hle, hlt⟩] at hrun
    obtain ⟨x, hx, hslice⟩ := hsound _ _ hrun
    rw [fetch_accesses] at hx
    obtain rfl := List.singleton_inj.mp hx
    have hfits := (hin ⟨hle, hlt⟩).mp hslice
    omega
  · intro hnot h acts hrun
    have hcontains : (mreg.slice proc).Contains rem := by
      obtain ⟨t, checked, rest, hcheck, -⟩ := bind_eq_ok.mp hrun
      have hstart := (i64_in_slice hwide.base hwide.stop hwide.size hrem hrem').1.mp
        (elemTarget_eq_ok hcheck)
      exact ⟨by omega, by omega⟩
    rw [gmrFetchAndOpLong_eq hwide hrem hrem', gmrFetchAndOp_ok hr hcontains] at hrun
    obtain rfl := (Prod.mk.inj hrun).2
    refine ⟨_, fetch_accesses cfg _ _, (hin hcontains).mpr ?_⟩
    obtain ⟨hle, hlt⟩ := hcontains
    omega

end

/-- What passes the assertions lies in the slice, for the four typed accessors unless its end
is beyond the largest `long`, for `gmr_fetch_and_op` of a member of the region unless its
element starts less than its size before the end of the slice. -/
theorem accessors_sound_iff (env : Env) (mreg : Gmr) (proc : Nat) (rem : Int)
    (hsize : (mreg.slice proc).size ≤ longMax) :
    (∀ count type, StartsAtZero count type →
      (∀ src srcCount srcType handle, SoundIff Act.accesses
        (gmrPutTypedLong env mreg src srcCount srcType rem count type proc handle)
        (mreg.slice proc).size (·.stop ≤ longMax)) ∧
      (∀ dst dstCount dstType handle, SoundIff Act.accesses
        (gmrGetTypedLong env mreg rem count type dst dstCount dstType proc handle)
        (mreg.slice proc).size (·.stop ≤ longMax)) ∧
      (∀ src srcCount srcType handle, SoundIff Act.accesses
        (gmrAccumulateTypedLong env mreg src srcCount srcType rem count type proc handle)
        (mreg.slice proc).size (·.stop ≤ longMax)) ∧
      ∀ (O : Type) (op : O) src srcCount srcType out outCount outType handle,
        SoundIff GetAccAct.accesses
          (gmrGetAccumulateTyped env mreg src srcCount srcType out outCount outType rem count type
            op proc handle)
          (mreg.slice proc).size (·.stop ≤ longMax)) ∧
    ∀ win g, Reaches env mreg proc win g → (mreg.slice proc).Wide → 0 ≤ rem → rem < 2 ^ 64 →
      ∀ cfg type op, Sound RmwAct.accesses (gmrFetchAndOpLong env cfg mreg rem type op proc)
          (mreg.slice proc).size ↔
        ¬ ((mreg.slice proc).base ≤ rem ∧
          (mreg.slice proc).base + (mreg.slice proc).size - type.size < rem ∧
          rem < (mreg.slice proc).base + (mreg.slice proc).size) := by
  refine ⟨fun count type htype => ⟨?_, ?_, ?_, ?_⟩,
    fun win g hr hwide hrem hrem' => gmrFetchAndOpLong_sound_iff hr hwide hrem hrem'⟩
  · exact gmrRmaTypedLong_sound hsize htype _ _
  · exact gmrRmaTypedLong_sound hsize htype _ _
  · exact gmrRmaTypedLong_sound hsize htype _ _
  · intro O op src srcCount srcType out outCount outType handle
    exact gmrGetAccumulateTyped_sound hsize htype src srcCount srcType out outCount outType op
      handle

def widestRegion : Gmr := { selfRegion with slices := [⟨4096, 2 ^ 63 - 1⟩, ⟨0, 0⟩] }

/-- A `long` fetched from the last four bytes of the slice passes the assertions, and so do
eight bytes put at the last two of the largest slice. -/
theorem access_beyond_slice :
    (∃ acts x, gmrFetchAndOpLong selfRegionEnv ⟨true, false⟩ selfRegion 4156 .long .sum 0 [] =
        (.ok (), acts) ∧ acts.flatMap RmwAct.accesses = [x] ∧ ¬ x.In (selfRegion.slice 0).size) ∧
    ∃ acts x, gmrPutTypedLong selfRegionEnv widestRegion 16 8 (.predefined .byte)
        (4096 + (2 ^ 63 - 3)) 8 (.predefined .byte) 0 none [] = (.ok (), acts) ∧
      acts.flatMap Act.accesses = [x] ∧ ¬ x.In (widestRegion.slice 0).size := by
  refine ⟨⟨_, _, rfl, rfl, fun hin => ?_⟩, _, _, rfl, rfl, fun hin => ?_⟩
  · exact absurd (hin 0 (by decide) 64 (by decide) (by decide)).2 (by decide)
  · exact absurd (hin 7 (by decide) (2 ^ 63 + 4) (by decide) (by decide)).2 (by decide)

theorem accessors_sound_iff_int :
    Sound RmwAct.accesses (gmrFetchAndOpLong selfRegionEnv ⟨true, false⟩ selfRegion 4156 .int .sum 0)
        64 ∧
      ¬ Sound RmwAct.accesses
        (gmrFetchAndOpLong selfRegionEnv ⟨true, false⟩ selfRegion 4156 .long .sum 0) 64 := by
  have hreach : Reaches selfRegionEnv selfRegion 0 selfWin 0 := ⟨selfRegion_ok, rfl⟩
  have hsound := (accessors_sound_iff selfRegionEnv selfRegion 0 4156 (by decide)).2 selfWin 0 hreach
    ⟨by decide, by decide, by decide⟩ (by decide) (by decide) ⟨true, false⟩
  exact ⟨(hsound .int .sum).mpr (by decide), fun h => (hsound .long .sum).mp h (by decide)⟩

end ArmciMpi
