import ArmciMpi.Runtime.Gmr

/-!
# Local buffers

Before a transfer a buffer in shared memory may be copied to private memory,
and the source of a scaled accumulate is always multiplied into private memory.
The vector functions prepare one private buffer for each segment and release
them afterwards. The private buffers of a scaled accumulate are one allocation:
the extra slot of the array of buffers holds its address, or null.

The counts of moved buffers that the prepare functions return are read by no
caller and are left out.
-/

namespace ArmciMpi

open Lib Script

-- ------------------------------
-- Accumulate types
-- ------------------------------

namespace Scale

/-- The MPI type of `ARMCII_Acc_type_translate`; a complex number is two of it. -/
def base : Scale → BaseType
  | int _ => .int
  | lng _ => .long
  | flt _ => .float
  | dbl _ => .double
  | cpl _ _ => .float
  | dcp _ _ => .double

def accTypeTranslate (s : Scale) : Dtype := .predefined s.base

def fltEpsilon : Float32 := 1.1920929e-7

def dblEpsilon : Float := 2.220446049250313e-16

/-- `ARMCII_Buf_acc_is_scaled`. -/
def accIsScaled : Scale → Bool
  | int s => s != 1
  | lng s => s != 1
  | flt s => !((s - 1).abs < fltEpsilon)
  | dbl s => !((s - 1).abs < dblEpsilon)
  | cpl re im => !((re - 1).abs < fltEpsilon && (im - 0).abs < fltEpsilon)
  | dcp re im => !((re - 1).abs < dblEpsilon && (im - 0).abs < dblEpsilon)

/-- The iterations of the scaling loop over `nelem` numbers: the complex types
take two numbers at a time. -/
def iterations (nelem : Nat) : Scale → Nat
  | int _ | lng _ | flt _ | dbl _ => nelem
  | cpl _ _ | dcp _ _ => (nelem + 1) / 2

end Scale

def bufAccScale (bufIn bufOut : Int) (size : Nat) (scale : Scale) : Script Act Unit := do
  emit (.scale scale bufIn bufOut (scale.iterations (size / scale.base.size)))
  require (size % scale.base.size = 0) "Transfer size is not a multiple of the datatype size"

-- ------------------------------
-- Private copies
-- ------------------------------

/-- `MPI_Alloc_mem` followed by the assertion on its result. -/
def allocMem (env : Env) (n : Nat) (assertion : String) : Script Act Int := do
  let h ← history
  let ptr := env.allocMem h n
  emit (.allocMem ptr n)
  require (ptr ≠ 0) assertion
  return ptr

/-- `MPI_Alloc_mem` of `n` bytes gives the buffer, which is not null. -/
def Env.Gives (env : Env) (h : List Act) (n : Nat) (p : Int) : Prop :=
  p = env.allocMem h n ∧ p ≠ 0

section
variable {env : Env}

theorem allocMem_null {n : Nat} {h : List Act} (hnull : env.allocMem h n = 0)
    (assertion : String) :
    allocMem env n assertion h = (.error assertion, [.allocMem 0 n]) := by
  rw [allocMem, history_bind_run, emit_bind_run, hnull, require_false (not_not.mpr rfl)]
  rfl

theorem allocMem_ok {n : Nat} {h : List Act} (hne : env.allocMem h n ≠ 0) (msg : String) :
    allocMem env n msg h = (.ok (env.allocMem h n), [.allocMem (env.allocMem h n) n]) := by
  rw [allocMem, history_bind_run, emit_bind_run, require_true hne]
  rfl

theorem allocMem_eq_ok {n : Nat} {msg : String} {h acts : List Act} {p : Int}
    (hrun : allocMem env n msg h = (.ok p, acts)) :
    env.Gives h n p ∧ acts = [.allocMem p n] := by
  by_cases hne : env.allocMem h n = 0
  · rw [allocMem, history_bind_run, emit_bind_run, require_false (not_not.mpr hne)] at hrun
    cases hrun
  · rw [allocMem_ok hne] at hrun
    cases hrun
    exact ⟨⟨rfl, hne⟩, rfl⟩

end

def armciCopy (src dst : Int) (size : Nat) : Script Act Unit := emit (.copy src dst size)

/-- One buffer of `ARMCII_Buf_prepare_read_vec` and
`ARMCII_Buf_prepare_write_vec`: only the first copies the contents. -/
def preparePrivate (env : Env) (copyIn : Bool) (size : Nat) (buf : Int) : Script Act Int := do
  match ← lift (gmrLookup env buf env.me) with
  | some _ =>
    let new ← allocMem env size "new_bufs[i] != NULL"
    if copyIn then armciCopy buf new size
    return new
  | none => return buf

def bufPrepareReadVec (env : Env) (origBufs : List Int) (size : Nat) : Script Act (List Int) :=
  if env.cfg.shrBufMethod ≠ .noguard then collect (preparePrivate env true size) origBufs
  else return origBufs

def bufFinishReadVec (env : Env) (origBufs newBufs : List Int) : Script Act Unit :=
  if env.cfg.shrBufMethod ≠ .noguard then
    forEach (fun (orig, new) => if orig ≠ new then emit (.freeMem new) else pure ())
      (origBufs.zip newBufs)
  else return ()

def bufPrepareWriteVec (env : Env) (origBufs : List Int) (size : Nat) : Script Act (List Int) :=
  if env.cfg.shrBufMethod ≠ .noguard then collect (preparePrivate env false size) origBufs
  else return origBufs

/-- One buffer of `ARMCII_Buf_finish_write_vec`. -/
def finishWrite (env : Env) (size : Nat) (orig new : Int) : Script Act Unit := do
  let mreg ← lift (gmrLookup env orig env.me)
  require (mreg ≠ none) "mreg != NULL"
  armciCopy new orig size
  emit (.freeMem new)

def bufFinishWriteVec (env : Env) (origBufs newBufs : List Int) (size : Nat) : Script Act Unit :=
  if env.cfg.shrBufMethod ≠ .noguard then
    forEach (fun (orig, new) => if orig ≠ new then finishWrite env size orig new else pure ())
      (origBufs.zip newBufs)
  else return ()

def contigBufs (contig : Int) (count size : Nat) : List Int :=
  (List.range count).map fun (i : Nat) => contig + i * size

def bufPrepareAccVec (env : Env) (origBufs : List Int) (size : Nat) (scale : Scale) :
    Script Act (List Int × Int) := do
  if scale.accIsScaled then
    let contig ← allocMem env (origBufs.length * size) "contig != NULL"
    let newBufs := contigBufs contig origBufs.length size
    forEach (fun (orig, new) => bufAccScale orig new size scale) (origBufs.zip newBufs)
    return (newBufs, contig)
  else
    -- the loop does what that of ARMCII_Buf_prepare_read_vec does
    let newBufs ← bufPrepareReadVec env origBufs size
    return (newBufs, 0)

def bufFinishAccVec (origBufs newBufs : List Int) (contig : Int) : Script Act Unit :=
  if contig ≠ 0 then emit (.freeMem contig)
  else
    forEach (fun (orig, new) => if orig ≠ new then emit (.freeMem new) else pure ())
      (origBufs.zip newBufs)

-- ------------------------------
-- Preparing is local
-- ------------------------------

section
variable (env : Env)

theorem emits_gmrSync (mreg : Gmr) : Emits Act.Local (gmrSync mreg) :=
  emits_bind (emits_lift _) fun _ => emits_ite (fun _ => emits_pure _) fun _ => emits_emit trivial

theorem emits_gmrProgress : Emits Act.Local (gmrProgress env) :=
  emits_ite (fun _ => emits_emit trivial) fun _ => emits_pure _

theorem emits_allocMem (n : Nat) (assertion : String) :
    Emits Act.Local (allocMem env n assertion) :=
  emits_bind emits_history fun _ => emits_bind (emits_emit trivial) fun _ =>
    emits_bind (emits_require _ _) fun _ => emits_pure _

theorem emits_armciCopy (src dst : Int) (size : Nat) : Emits Act.Local (armciCopy src dst size) :=
  emits_emit trivial

theorem emits_bufAccScale (bufIn bufOut : Int) (size : Nat) (scale : Scale) :
    Emits Act.Local (bufAccScale bufIn bufOut size scale) :=
  emits_bind (emits_emit trivial) fun _ => emits_require _ _

theorem emits_preparePrivate (copyIn : Bool) (size : Nat) (buf : Int) :
    Emits Act.Local (preparePrivate env copyIn size buf) := by
  refine emits_bind (emits_lift _) fun mreg => ?_
  cases mreg with
  | none => exact emits_pure _
  | some _ =>
    refine emits_bind (emits_allocMem _ _ _) fun new => ?_
    cases copyIn with
    | false => exact emits_pure _
    | true => exact emits_bind (emits_armciCopy _ _ _) fun _ => emits_pure _

theorem emits_bufPrepareReadVec (origBufs : List Int) (size : Nat) :
    Emits Act.Local (bufPrepareReadVec env origBufs size) :=
  emits_ite (fun _ => emits_collect fun _ _ => emits_preparePrivate _ _ _ _) fun _ => emits_pure _

theorem emits_bufPrepareWriteVec (origBufs : List Int) (size : Nat) :
    Emits Act.Local (bufPrepareWriteVec env origBufs size) :=
  emits_ite (fun _ => emits_collect fun _ _ => emits_preparePrivate _ _ _ _) fun _ => emits_pure _

theorem emits_bufPrepareAccVec (origBufs : List Int) (size : Nat) (scale : Scale) :
    Emits Act.Local (bufPrepareAccVec env origBufs size scale) := by
  refine emits_ite (fun _ => ?_) fun _ => ?_
  · exact emits_bind (emits_allocMem _ _ _) fun _ =>
      emits_bind (emits_forEach fun _ _ => emits_bufAccScale _ _ _ _) fun _ => emits_pure _
  · exact emits_bind (emits_bufPrepareReadVec _ _ _) fun _ => emits_pure _

end

end ArmciMpi
