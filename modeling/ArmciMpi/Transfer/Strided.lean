import ArmciMpi.Transfer.Vector

/-!
# Strided transfers

A strided transfer is given by a block of `count[0]` bytes and, for each level
`i`, a number `count[i+1]` of steps of `stride[i]` bytes. With the direct method
it becomes one operation on subarray datatypes (`stridedToDtype`), with the
other a vector of all its blocks (`stridedToIov`).

The arrays are functions of the index; only the entries up to `stride_levels`
are read. C leaves overflow of `int` arithmetic undefined, and the model
computes exact integers.
-/

namespace ArmciMpi

open Lib Script

-- ------------------------------
-- As a datatype
-- ------------------------------

def trimLevels (count : Nat → Nat) : Nat → Nat
  | 0 => 0
  | levels + 1 => if count (levels + 1) = 1 then trimLevels count levels else levels + 1

/-- `sizes[1]` to `sizes[stride_levels]` for `k + 1` levels. -/
def innerSizes (stride : Nat → Int) (typeSize : Nat) : Nat → List Int
  | 0 => [(stride 0).tdiv typeSize]
  | k + 1 => (stride (k + 1)).tdiv (stride k) :: innerSizes stride typeSize k

/-- `subsizes[0]` to `subsizes[stride_levels]` for `k` levels. -/
def subsizes (count : Nat → Nat) (typeSize : Nat) : Nat → List Nat
  | 0 => [count 0 / typeSize]
  | k + 1 => count (k + 1) :: subsizes count typeSize k

/-- `MPI_Type_create_subarray`, which refuses an empty array and a subarray that
does not fit into it. -/
def typeCreateSubarray (sizes : List Int) (subsizes : List Nat) (t : Dtype) :
    Except String Dtype :=
  if (sizes.zip subsizes).all fun (size, sub) => 1 ≤ sub ∧ (sub : Int) ≤ size then
    .ok (t.subarray (sizes.map Int.toNat) subsizes)
  else .error "MPI_ERR_ARG"

def stridedToDtype (stride : Nat → Int) (count : Nat → Nat) (strideLevels : Nat)
    (oldType : Dtype) : Except String Dtype := do
  let typeSize := oldType.size
  let levels := trimLevels count strideLevels
  if !(List.range (levels - 1)).all fun i => stride i ≤ stride (i + 1) then
    throw "stride_array[i] >= stride_array[i-1]"
  match levels with
  | 0 =>
    if count 0 % typeSize ≠ 0 then throw "(count[0] % old_type_size) == 0"
    return oldType.contiguous (count 0 / typeSize)
  | k + 1 =>
    if (stride 0).tmod typeSize ≠ 0 then throw "(stride_array[0] % old_type_size) == 0"
    if count 0 % typeSize ≠ 0 then throw "(count[0] % old_type_size) == 0"
    typeCreateSubarray (count (k + 1) :: innerSizes stride typeSize k)
      (subsizes count typeSize (k + 1)) oldType

-- ------------------------------
-- As a vector
-- ------------------------------

/-- Carries overflows outward after the innermost index was increased; the
outermost index is never reset. `counts` are the counts of the levels. -/
def carry : List Nat → List Nat → List Nat
  | i :: j :: idx, c :: counts =>
    if c ≤ i then 0 :: carry ((j + 1) :: idx) counts else i :: carry (j :: idx) counts
  | idx, _ => idx

def nextIndex (counts : List Nat) : List Nat → List Nat
  | [] => []
  | i :: idx => carry ((i + 1) :: idx) counts

def indexDisp (stride : Nat → Int) (idx : List Nat) : Int :=
  (idx.mapIdx fun i (n : Nat) => stride i * n).sum

/-- The loop of `ARMCII_Strided_to_iov` with `left` entries of the vector not
yet filled. -/
def stridedLoop (counts : List Nat) : Nat → List Nat → Except String (List (List Nat))
  | left, idx =>
    if idx.getLastD 0 < counts.getLastD 0 then
      match left with
      | 0 => .error "xfer < iov->ptr_array_len"
      | left + 1 => do
        let rest ← stridedLoop counts left (nextIndex counts idx)
        return idx :: rest
    else if left = 0 then .ok []
    else .error "xfer == iov->ptr_array_len"

def stridedIndices (count : Nat → Nat) (strideLevels : Nat) : Except String (List (List Nat)) :=
  let counts := (List.range strideLevels).map fun i => count (i + 1)
  if strideLevels = 0 then .ok [[]]
  else stridedLoop counts counts.prod (List.replicate strideLevels 0)

def stridedToIov (src : Int) (srcStride : Nat → Int) (dst : Int) (dstStride : Nat → Int)
    (count : Nat → Nat) (strideLevels : Nat) : Except String Giov := do
  let indices ← stridedIndices count strideLevels
  return { srcPtrArray := indices.map fun idx => src + indexDisp srcStride idx
           dstPtrArray := indices.map fun idx => dst + indexDisp dstStride idx
           bytes := count 0
           len_eq := by simp }

def packed (buf : Int) (blocks : List Int) (size : Nat) : List (Int × Int) :=
  blocks.zip (contigBufs buf blocks.length size)

def armciWriteStrided (src : Int) (strideLevels : Nat) (srcStride : Nat → Int)
    (count : Nat → Nat) (dst : Int) : Script Act Unit := do
  let iov ← lift (stridedToIov src srcStride src srcStride count strideLevels)
  forEach (fun (block, slot) => armciCopy block slot iov.bytes)
    (packed dst iov.srcPtrArray (count 0))

def armciReadStrided (dst : Int) (strideLevels : Nat) (dstStride : Nat → Int)
    (count : Nat → Nat) (src : Int) : Script Act Unit := do
  let iov ← lift (stridedToIov dst dstStride dst dstStride count strideLevels)
  forEach (fun (block, slot) => armciCopy slot block iov.bytes)
    (packed src iov.dstPtrArray (count 0))

-- ------------------------------
-- Local buffers of the direct method
-- ------------------------------

/-- `count[0] * ... * count[stride_levels]`, starting from the first count given
here. -/
def stridedProduct (first : Nat) (count : Nat → Nat) (strideLevels : Nat) : Nat :=
  (List.range strideLevels).foldl (fun n i => n * count (i + 1)) first

/-- The shared local buffer that needs a private copy. Without copying, the
region of the buffer is synchronised instead. -/
def stridedGuard (env : Env) (buf : Int) : Script Act (Option Gmr) := do
  let gmrLoc ← lift (gmrLookup env buf env.me)
  if env.cfg.shrBufMethod = .copy then return gmrLoc
  else
    match gmrLoc with
    | some mreg => gmrSync mreg
    | none => pure ()
    return none

def stridedPrepareRead (env : Env) (src : Int) (srcStride : Nat → Int) (count : Nat → Nat)
    (strideLevels : Nat) : Script Act (Int × Dtype) := do
  match ← stridedGuard env src with
  | some _ =>
    let size := stridedProduct (count 0) count strideLevels
    let srcBuf ← allocMem env size "src_buf != NULL"
    armciWriteStrided src strideLevels srcStride count srcBuf
    return (srcBuf, (Dtype.predefined .byte).contiguous size)
  | none =>
    let srcType ← lift (stridedToDtype srcStride count strideLevels (.predefined .byte))
    return (src, srcType)

def stridedPrepareWrite (env : Env) (dst : Int) (dstStride : Nat → Int) (count : Nat → Nat)
    (strideLevels : Nat) : Script Act (Int × Dtype) := do
  match ← stridedGuard env dst with
  | some _ =>
    let size := stridedProduct (count 0) count strideLevels
    let dstBuf ← allocMem env size "dst_buf != NULL"
    return (dstBuf, (Dtype.predefined .byte).contiguous size)
  | none =>
    let dstType ← lift (stridedToDtype dstStride count strideLevels (.predefined .byte))
    return (dst, dstType)

def stridedPrepareAcc (env : Env) (scale : Scale) (src : Int) (srcStride : Nat → Int)
    (count : Nat → Nat) (strideLevels : Nat) : Script Act (Int × Dtype) := do
  let type := scale.accTypeTranslate
  let nelem := stridedProduct (count 0 / type.size) count strideLevels
  if scale.accIsScaled then
    let _ ← lift (guardLookup env src)
    let srcBuf ← allocMem env (nelem * type.size) "src_buf != NULL"
    let iov ← lift (stridedToIov src srcStride src srcStride count strideLevels)
    forEach (fun (block, slot) => bufAccScale block slot iov.bytes scale)
      (packed srcBuf iov.srcPtrArray iov.bytes)
    return (srcBuf, type.contiguous nelem)
  else
    match ← stridedGuard env src with
    | some _ =>
      let srcBuf ← allocMem env (nelem * type.size) "src_buf != NULL"
      armciWriteStrided src strideLevels srcStride count srcBuf
      return (srcBuf, type.contiguous nelem)
    | none =>
      let srcType ← lift (stridedToDtype srcStride count strideLevels type)
      return (src, srcType)

section
variable (env : Env)

theorem emits_armciWriteStrided (src : Int) (strideLevels : Nat) (srcStride : Nat → Int)
    (count : Nat → Nat) (dst : Int) :
    Emits Act.Local (armciWriteStrided src strideLevels srcStride count dst) :=
  emits_bind (emits_lift _) fun _ => emits_forEach fun _ _ => emits_armciCopy _ _ _

theorem emits_armciReadStrided (dst : Int) (strideLevels : Nat) (dstStride : Nat → Int)
    (count : Nat → Nat) (src : Int) :
    Emits Act.Local (armciReadStrided dst strideLevels dstStride count src) :=
  emits_bind (emits_lift _) fun _ => emits_forEach fun _ _ => emits_armciCopy _ _ _

theorem emits_stridedGuard (buf : Int) : Emits Act.Local (stridedGuard env buf) := by
  refine emits_bind (emits_lift _) fun gmrLoc => emits_ite (fun _ => emits_pure _) fun _ => ?_
  cases gmrLoc with
  | none => exact emits_pure _
  | some mreg => exact emits_bind (emits_gmrSync mreg) fun _ => emits_pure _

theorem emits_stridedPrepareRead (src : Int) (srcStride : Nat → Int) (count : Nat → Nat)
    (strideLevels : Nat) :
    Emits Act.Local (stridedPrepareRead env src srcStride count strideLevels) := by
  refine emits_bind (emits_stridedGuard env src) fun gmrLoc => ?_
  cases gmrLoc with
  | none => exact emits_bind (emits_lift _) fun _ => emits_pure _
  | some _ =>
    exact emits_bind (emits_allocMem _ _ _) fun _ =>
      emits_bind (emits_armciWriteStrided _ _ _ _ _) fun _ => emits_pure _

theorem emits_stridedPrepareWrite (dst : Int) (dstStride : Nat → Int) (count : Nat → Nat)
    (strideLevels : Nat) :
    Emits Act.Local (stridedPrepareWrite env dst dstStride count strideLevels) := by
  refine emits_bind (emits_stridedGuard env dst) fun gmrLoc => ?_
  cases gmrLoc with
  | none => exact emits_bind (emits_lift _) fun _ => emits_pure _
  | some _ => exact emits_bind (emits_allocMem _ _ _) fun _ => emits_pure _

theorem emits_stridedPrepareAcc (scale : Scale) (src : Int) (srcStride : Nat → Int)
    (count : Nat → Nat) (strideLevels : Nat) :
    Emits Act.Local (stridedPrepareAcc env scale src srcStride count strideLevels) := by
  refine emits_ite (fun _ => ?_) fun _ => emits_bind (emits_stridedGuard env src) fun gmrLoc => ?_
  · exact emits_bind (emits_lift _) fun _ => emits_bind (emits_allocMem _ _ _) fun _ =>
      emits_bind (emits_lift _) fun _ =>
        emits_bind (emits_forEach fun _ _ => emits_bufAccScale _ _ _ _) fun _ => emits_pure _
  · cases gmrLoc with
    | none => exact emits_bind (emits_lift _) fun _ => emits_pure _
    | some _ =>
      exact emits_bind (emits_allocMem _ _ _) fun _ =>
        emits_bind (emits_armciWriteStrided _ _ _ _ _) fun _ => emits_pure _

end

def invalidShared : String := "Invalid shared pointer"

-- ------------------------------
-- Operations
-- ------------------------------

def parmciPutS (env : Env) (src : Int) (srcStride : Nat → Int) (dst : Int)
    (dstStride : Nat → Int) (count : Nat → Nat) (strideLevels : Nat) (proc : Nat) :
    Script Act Unit := do
  if env.cfg.stridedMethod = .direct then
    let (srcBuf, srcType) ← stridedPrepareRead env src srcStride count strideLevels
    let dstType ← lift (stridedToDtype dstStride count strideLevels (.predefined .byte))
    let mreg ← lift (gmrLookup env dst proc)
    let mreg ← lift (found mreg invalidShared)
    gmrPutTyped env mreg srcBuf 1 srcType dst 1 dstType proc none
    gmrFlush env mreg proc true
    if srcBuf ≠ src then emit (.freeMem srcBuf) else pure ()
  else
    let iov ← lift (stridedToIov src srcStride dst dstStride count strideLevels)
    parmciPutV env [iov] proc

def parmciGetS (env : Env) (src : Int) (srcStride : Nat → Int) (dst : Int)
    (dstStride : Nat → Int) (count : Nat → Nat) (strideLevels : Nat) (proc : Nat) :
    Script Act Unit := do
  if env.cfg.stridedMethod = .direct then
    let (dstBuf, dstType) ← stridedPrepareWrite env dst dstStride count strideLevels
    let srcType ← lift (stridedToDtype srcStride count strideLevels (.predefined .byte))
    let mreg ← lift (gmrLookup env src proc)
    let mreg ← lift (found mreg invalidShared)
    gmrGetTyped env mreg src 1 srcType dstBuf 1 dstType proc none
    gmrFlush env mreg proc false
    if dstBuf ≠ dst then
      armciReadStrided dst strideLevels dstStride count dstBuf
      emit (.freeMem dstBuf)
  else
    let iov ← lift (stridedToIov src srcStride dst dstStride count strideLevels)
    parmciGetV env [iov] proc

def parmciAccS (env : Env) (scale : Scale) (src : Int) (srcStride : Nat → Int) (dst : Int)
    (dstStride : Nat → Int) (count : Nat → Nat) (strideLevels : Nat) (proc : Nat) :
    Script Act Unit := do
  if env.cfg.stridedMethod = .direct then
    let (srcBuf, srcType) ← stridedPrepareAcc env scale src srcStride count strideLevels
    let dstType ← lift (stridedToDtype dstStride count strideLevels scale.accTypeTranslate)
    require (srcType.size = dstType.size) "src_size == dst_size"
    let mreg ← lift (gmrLookup env dst proc)
    let mreg ← lift (found mreg invalidShared)
    gmrAccumulateTyped env mreg srcBuf 1 srcType dst 1 dstType proc none
    gmrFlush env mreg proc true
    if srcBuf ≠ src then emit (.freeMem srcBuf) else pure ()
  else
    let iov ← lift (stridedToIov src srcStride dst dstStride count strideLevels)
    parmciAccV env scale [iov] proc

def parmciNbPutS (env : Env) (src : Int) (srcStride : Nat → Int) (dst : Int)
    (dstStride : Nat → Int) (count : Nat → Nat) (strideLevels : Nat) (proc : Nat)
    (handle : Option Nat) : Script Act Unit := do
  if env.cfg.stridedMethod = .direct then
    let (srcBuf, srcType) ← stridedPrepareRead env src srcStride count strideLevels
    let dstType ← lift (stridedToDtype dstStride count strideLevels (.predefined .byte))
    let mreg ← lift (gmrLookup env dst proc)
    let mreg ← lift (found mreg invalidShared)
    gmrPutTyped env mreg srcBuf 1 srcType dst 1 dstType proc handle
    if srcBuf ≠ src then
      gmrFlush env mreg proc true
      emit (.freeMem srcBuf)
  else
    let iov ← lift (stridedToIov src srcStride dst dstStride count strideLevels)
    parmciNbPutV env [iov] proc handle
  gmrProgress env

def parmciNbGetS (env : Env) (src : Int) (srcStride : Nat → Int) (dst : Int)
    (dstStride : Nat → Int) (count : Nat → Nat) (strideLevels : Nat) (proc : Nat)
    (handle : Option Nat) : Script Act Unit := do
  if env.cfg.stridedMethod = .direct then
    let (dstBuf, dstType) ← stridedPrepareWrite env dst dstStride count strideLevels
    let srcType ← lift (stridedToDtype srcStride count strideLevels (.predefined .byte))
    let mreg ← lift (gmrLookup env src proc)
    let mreg ← lift (found mreg invalidShared)
    gmrGetTyped env mreg src 1 srcType dstBuf 1 dstType proc handle
    if dstBuf ≠ dst then
      gmrFlush env mreg proc true
      armciReadStrided dst strideLevels dstStride count dstBuf
      emit (.freeMem dstBuf)
  else
    let iov ← lift (stridedToIov src srcStride dst dstStride count strideLevels)
    parmciNbGetV env [iov] proc handle
  gmrProgress env

def parmciNbAccS (env : Env) (scale : Scale) (src : Int) (srcStride : Nat → Int) (dst : Int)
    (dstStride : Nat → Int) (count : Nat → Nat) (strideLevels : Nat) (proc : Nat)
    (handle : Option Nat) : Script Act Unit := do
  if env.cfg.stridedMethod = .direct then
    let (srcBuf, srcType) ← stridedPrepareAcc env scale src srcStride count strideLevels
    let dstType ← lift (stridedToDtype dstStride count strideLevels scale.accTypeTranslate)
    require (srcType.size = dstType.size) "src_size == dst_size"
    let mreg ← lift (gmrLookup env dst proc)
    let mreg ← lift (found mreg invalidShared)
    gmrAccumulateTyped env mreg srcBuf 1 srcType dst 1 dstType proc handle
    if srcBuf ≠ src then
      gmrFlush env mreg proc true
      emit (.freeMem srcBuf)
  else
    let iov ← lift (stridedToIov src srcStride dst dstStride count strideLevels)
    parmciNbAccV env scale [iov] proc handle
  gmrProgress env

end ArmciMpi
