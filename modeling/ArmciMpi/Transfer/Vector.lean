import ArmciMpi.ConflictTree.Heap
import ArmciMpi.Transfer.Contiguous

/-!
# Vector transfers

An I/O vector names pairs of segments of one size. The segments go out one by
one (`iovOpBatched`) or as indexed-block datatypes over all of them or over
chunks of them (`iovOpDatatype`); remote segments that overlap or lie in
several regions are always sent one by one, with a flush after each.

C's conversions of longer integers to `int` wrap (`i32`); its divisions round
towards zero.
-/

namespace ArmciMpi

open Lib Script ConflictTree

/-- `armci_giov_t`; the two arrays have `ptr_array_len` entries each. -/
structure Giov where
  srcPtrArray : List Int
  dstPtrArray : List Int
  bytes : Nat
  len_eq : srcPtrArray.length = dstPtrArray.length

def Giov.ptrArrayLen (iov : Giov) : Nat := iov.srcPtrArray.length

-- ------------------------------
-- Checks
-- ------------------------------

/-- The loop of `ARMCII_Iov_check_overlap`. The debug message about a conflict
reads the ends of the stored range. -/
def overlapLoop (size : Nat) (ctree : CTree) : List Int → Except String Bool
  | [] => .ok false
  | ptr :: ptrs => do
    let (ctree, conflict) ← ctreeInsert ctree ptr (ptr + size - 1)
    if conflict then
      let cnode ← ctreeLocate ctree.heap.next ctree.heap ctree.root ptr (ptr + size - 1)
      let _ ← ctree.heap.get cnode
      return true
    else overlapLoop size ctree ptrs

def iovCheckOverlap (env : Env) (ptrs : List Int) (size : Nat) : Except String Bool :=
  if !env.cfg.iovChecks then .ok false else overlapLoop size ctreeEmpty ptrs

def allPrivate (env : Env) (proc : Nat) : List Int → Except String Bool
  | [] => .ok true
  | ptr :: ptrs => do
    match ← gmrLookup env ptr proc with
    | some _ => return false
    | none => allPrivate env proc ptrs

def iovCheckSameAllocation (env : Env) (ptrs : List Int) (proc : Nat) : Except String Bool :=
  if !env.cfg.iovChecks then .ok true
  else
    match ptrs with
    | [] => .ok true
    | ptr :: rest => do
      match ← gmrLookup env ptr proc with
      | none => allPrivate env proc rest
      | some mreg =>
        let base := (mreg.slice proc).base
        let extent := base + (mreg.slice proc).size
        return rest.all fun p => base ≤ p ∧ p < extent

-- ------------------------------
-- Segment by segment
-- ------------------------------

/-- The transfer of one segment of `elemCount` elements. -/
def gmrSegment (env : Env) (op : RmaKind) (mreg : Gmr) (src dst : Int) (elemCount : Nat)
    (type : Dtype) (proc : Nat) (handle : Option Nat) : Script Act Unit :=
  match op with
  | .put => gmrPut env mreg src dst elemCount proc handle
  | .get => gmrGet env mreg src dst elemCount proc handle
  | .acc => gmrAccumulate env mreg src dst elemCount type proc handle

def remoteOf {α : Type} (op : RmaKind) (src dst : α) : α :=
  match op with
  | .put | .acc => dst
  | .get => src

def localOf {α : Type} (op : RmaKind) (src dst : α) : α :=
  match op with
  | .put | .acc => src
  | .get => dst

/-- The loop of `ARMCII_Iov_op_batched` from index `i` on; the result is the
kind of flush the last segment needs. -/
def batchedLoop (env : Env) (op : RmaKind) (mreg : Gmr) (elemCount : Nat) (type : Dtype)
    (proc : Nat) (consrv blocking : Bool) (handle : Option Nat) :
    Nat → Bool → List (Int × Int) → Script Act Bool
  | _, flushLocal, [] => return flushLocal
  | i, flushLocal, (src, dst) :: rest => do
    if blocking ∧ 0 < i ∧
        (consrv ∨ 0 < env.cfg.iovBatchedLimit ∧ i % env.cfg.iovBatchedLimit = 0) then
      gmrFlush env mreg proc flushLocal
    gmrSegment env op mreg src dst elemCount type proc handle
    batchedLoop env op mreg elemCount type proc consrv blocking handle (i + 1)
      (op != .get) rest

def iovOpBatched (env : Env) (op : RmaKind) (src dst : List Int) (elemCount : Nat)
    (type : Dtype) (proc : Nat) (consrv blocking : Bool) (handle : Option Nat) :
    Script Act Unit := do
  let mreg ← lift (gmrLookup env ((remoteOf op src dst).headD 0) proc)
  let mreg ← lift (found mreg invalidRemote)
  let flushLocal ← batchedLoop env op mreg elemCount type proc consrv blocking handle 0 true
    (src.zip dst)
  if blocking then gmrFlush env mreg proc flushLocal else pure ()

-- ------------------------------
-- Datatypes
-- ------------------------------

def lowest (bufLoc : List Int) : Int :=
  bufLoc.foldl (fun base addr => if addr < base then addr else base) (bufLoc.headD 0)

/-- The displacements of one segment, with the checks of
`ARMCII_Iov_op_datatype`. -/
def segmentDisps (baseLoc winBase winSize : Int) (typeSize elemCount : Nat) (loc rem : Int) :
    Except String (Int × Int) := do
  let offLoc := (loc - baseLoc).tdiv typeSize
  let dispRem := i32 ((rem - winBase).tdiv typeSize)
  if (loc - baseLoc).tmod typeSize ≠ 0 then
    throw "Local transfer offset is not a multiple of type size"
  if ¬ offLoc ≤ intMax then
    throw "Local segment span exceeds 32-bit element displacement; use ARMCI_IOV_METHOD=BATCHED"
  if (rem - winBase).tmod typeSize ≠ 0 then
    throw "Transfer size is not a multiple of type size"
  if ¬ (0 ≤ dispRem ∧ dispRem < winSize) then throw invalidRemote
  if ¬ rem + elemCount ≤ winBase + winSize then throw "Transfer exceeds buffer length"
  return (i32 offLoc, dispRem)

structure SegmentFits (baseLoc winBase winSize : Int) (typeSize elemCount : Nat) (loc rem : Int) :
    Prop where
  loc_mod : (loc - baseLoc).tmod typeSize = 0
  span : (loc - baseLoc).tdiv typeSize ≤ intMax
  rem_mod : (rem - winBase).tmod typeSize = 0
  disp : 0 ≤ i32 ((rem - winBase).tdiv typeSize) ∧ i32 ((rem - winBase).tdiv typeSize) < winSize
  length : rem + elemCount ≤ winBase + winSize

theorem segmentDisps_eq_ok {baseLoc winBase winSize : Int} {typeSize elemCount : Nat}
    {loc rem : Int} {d : Int × Int} :
    segmentDisps baseLoc winBase winSize typeSize elemCount loc rem = .ok d ↔
      SegmentFits baseLoc winBase winSize typeSize elemCount loc rem ∧
        d = (i32 ((loc - baseLoc).tdiv typeSize), i32 ((rem - winBase).tdiv typeSize)) := by
  unfold segmentDisps
  constructor
  · intro h
    obtain ⟨h₁, h⟩ := ite_throw_eq_ok.mp h
    obtain ⟨h₂, h⟩ := ite_throw_eq_ok.mp h
    obtain ⟨h₃, h⟩ := ite_throw_eq_ok.mp h
    obtain ⟨h₄, h⟩ := ite_throw_eq_ok.mp h
    obtain ⟨h₅, h⟩ := ite_throw_eq_ok.mp h
    cases h
    exact ⟨⟨not_not.mp h₁, not_not.mp h₂, not_not.mp h₃, not_not.mp h₄, not_not.mp h₅⟩, rfl⟩
  · rintro ⟨⟨h₁, h₂, h₃, h₄, h₅⟩, rfl⟩
    refine ite_throw_eq_ok.mpr ⟨not_not.mpr h₁, ite_throw_eq_ok.mpr ⟨not_not.mpr h₂, ?_⟩⟩
    refine ite_throw_eq_ok.mpr ⟨not_not.mpr h₃, ite_throw_eq_ok.mpr ⟨not_not.mpr h₄, ?_⟩⟩
    exact ite_throw_eq_ok.mpr ⟨not_not.mpr h₅, rfl⟩

/-- The chunks of `n` entries a list is cut into, the last one possibly shorter. -/
def chunks (n : Nat) : Nat → List α → List (List α)
  | 0, _ => []
  | fuel + 1, l => if l = [] then [] else l.take n :: chunks n fuel (l.drop n)

theorem chunks_cons (n fuel : Nat) (x : α) (xs : List α) :
    chunks (n + 1) (fuel + 1) (x :: xs) = (x :: xs.take n) :: chunks (n + 1) fuel (xs.drop n) := rfl

def chunkSize (env : Env) (count : Nat) : Nat :=
  if env.cfg.iovDtypeChunk ≤ 0 ∨ env.cfg.iovDtypeChunk > count then count
  else env.cfg.iovDtypeChunk.toNat

theorem chunkSize_pos (env : Env) {count : Nat} (h : 0 < count) : 0 < chunkSize env count := by
  unfold chunkSize
  split <;> omega

/-- One operation of `ARMCII_Iov_op_datatype`. -/
def gmrChunk (env : Env) (op : RmaKind) (mreg : Gmr) (baseLoc : Int) (elemCount : Nat)
    (type : Dtype) (proc : Nat) (handle : Option Nat) (disps : List (Int × Int)) :
    Script Act Unit :=
  let typeLoc := type.indexedBlock elemCount (disps.map Prod.fst)
  let typeRem := type.indexedBlock elemCount (disps.map Prod.snd)
  -- the remote address is MPI_BOTTOM
  match op with
  | .put => gmrPutTyped env mreg baseLoc 1 typeLoc 0 1 typeRem proc handle
  | .get => gmrGetTyped env mreg 0 1 typeRem baseLoc 1 typeLoc proc handle
  | .acc => gmrAccumulateTyped env mreg baseLoc 1 typeLoc 0 1 typeRem proc handle

def iovOpDatatype (env : Env) (op : RmaKind) (src dst : List Int) (elemCount : Nat)
    (type : Dtype) (proc : Nat) (blocking : Bool) (handle : Option Nat) : Script Act Unit := do
  let bufLoc := localOf op src dst
  let bufRem := remoteOf op src dst
  let mreg ← lift (gmrLookup env (bufRem.headD 0) proc)
  let mreg ← lift (found mreg invalidRemote)
  let slice := mreg.slice proc
  let baseLoc := lowest bufLoc
  let disps ← lift ((bufLoc.zip bufRem).mapM fun seg =>
    segmentDisps baseLoc slice.base (i32 slice.size) type.size elemCount seg.1 seg.2)
  let count := disps.length
  forEach (gmrChunk env op mreg baseLoc elemCount type proc handle)
    (chunks (chunkSize env count) count disps)
  if blocking then gmrFlush env mreg proc (op != .get && count != 0) else pure ()

-- ------------------------------
-- Dispatch
-- ------------------------------

/-- `ARMCII_Iov_op_dispatch`; the type is that of the accumulate, or a byte. -/
def iovOpDispatch (env : Env) (op : RmaKind) (src dst : List Int) (size : Nat) (type : Dtype)
    (overlapping sameAlloc : Bool) (proc : Nat) (blocking : Bool) (handle : Option Nat) :
    Script Act Unit := do
  let typeCount := size / type.size
  require (size % type.size = 0) "Transfer size is not a multiple of type size"
  if overlapping ∨ !sameAlloc ∨ env.cfg.iovMethod = .consrv then
    iovOpBatched env op src dst typeCount type proc true true handle
  else
    match env.cfg.iovMethod with
    | .direct | .auto => iovOpDatatype env op src dst typeCount type proc blocking handle
    | .batched => iovOpBatched env op src dst typeCount type proc false blocking handle
    | .consrv => abort "unknown iov method"

def Giov.Nop (iov : Giov) : Prop := iov.ptrArrayLen = 0 ∨ iov.bytes = 0

instance (iov : Giov) : Decidable iov.Nop :=
  inferInstanceAs (Decidable (iov.ptrArrayLen = 0 ∨ iov.bytes = 0))

def putVEntry (env : Env) (proc : Nat) (blocking : Bool) (handle : Option Nat) (iov : Giov) :
    Script Act Unit := do
  if iov.Nop then return ()
  let overlapping ← lift (iovCheckOverlap env iov.dstPtrArray iov.bytes)
  let sameAlloc ← lift (iovCheckSameAllocation env iov.dstPtrArray proc)
  let srcBuf ← bufPrepareReadVec env iov.srcPtrArray iov.bytes
  iovOpDispatch env .put srcBuf iov.dstPtrArray iov.bytes (.predefined .byte) overlapping
    sameAlloc proc blocking handle
  bufFinishReadVec env iov.srcPtrArray srcBuf

def getVEntry (env : Env) (proc : Nat) (blocking : Bool) (handle : Option Nat) (iov : Giov) :
    Script Act Unit := do
  if iov.Nop then return ()
  let overlapping ← lift (iovCheckOverlap env iov.dstPtrArray iov.bytes)
  let sameAlloc ← lift (iovCheckSameAllocation env iov.srcPtrArray proc)
  let dstBuf ← bufPrepareWriteVec env iov.dstPtrArray iov.bytes
  iovOpDispatch env .get iov.srcPtrArray dstBuf iov.bytes (.predefined .byte) overlapping
    sameAlloc proc blocking handle
  bufFinishWriteVec env iov.dstPtrArray dstBuf iov.bytes

def accVEntry (env : Env) (scale : Scale) (proc : Nat) (blocking : Bool) (handle : Option Nat)
    (iov : Giov) : Script Act Unit := do
  if iov.Nop then return ()
  let overlapping ← lift (iovCheckOverlap env iov.dstPtrArray iov.bytes)
  let sameAlloc ← lift (iovCheckSameAllocation env iov.dstPtrArray proc)
  let (srcBuf, contig) ← bufPrepareAccVec env iov.srcPtrArray iov.bytes scale
  iovOpDispatch env .acc srcBuf iov.dstPtrArray iov.bytes scale.accTypeTranslate overlapping
    sameAlloc proc blocking handle
  bufFinishAccVec iov.srcPtrArray srcBuf contig

def parmciPutV (env : Env) (iov : List Giov) (proc : Nat) : Script Act Unit :=
  forEach (putVEntry env proc true none) iov

def parmciGetV (env : Env) (iov : List Giov) (proc : Nat) : Script Act Unit :=
  forEach (getVEntry env proc true none) iov

def parmciAccV (env : Env) (scale : Scale) (iov : List Giov) (proc : Nat) : Script Act Unit :=
  forEach (accVEntry env scale proc true none) iov

def nbBlocking (env : Env) : Bool := env.cfg.shrBufMethod != .noguard

def parmciNbPutV (env : Env) (iov : List Giov) (proc : Nat) (handle : Option Nat) :
    Script Act Unit := do
  forEach (putVEntry env proc (nbBlocking env) handle) iov
  gmrProgress env

def parmciNbGetV (env : Env) (iov : List Giov) (proc : Nat) (handle : Option Nat) :
    Script Act Unit := do
  forEach (getVEntry env proc (nbBlocking env) handle) iov
  gmrProgress env

def parmciNbAccV (env : Env) (scale : Scale) (iov : List Giov) (proc : Nat)
    (handle : Option Nat) : Script Act Unit := do
  forEach (accVEntry env scale proc (nbBlocking env) handle) iov
  gmrProgress env

end ArmciMpi
