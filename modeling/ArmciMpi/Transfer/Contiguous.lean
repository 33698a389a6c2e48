import ArmciMpi.Transfer.Buffer

/-!
# Contiguous transfers

`PARMCI_Get`, `PARMCI_Put` and `PARMCI_Acc` with their nonblocking forms. A put
or get between a private buffer and the caller's own memory is a plain copy.
With `ARMCII_SHR_BUF_COPY` the blocking put and get go through a private buffer
when the local one is shared, and an accumulate copies its source always; the
nonblocking put and get use the local buffer as it is.
-/

namespace ArmciMpi

open Lib Script

/-- The region of a local buffer, which `ARMCII_SHR_BUF_NOGUARD` does not look
up. -/
def guardLookup (env : Env) (buf : Int) : Except String (Option Gmr) :=
  if env.cfg.shrBufMethod ≠ .noguard then gmrLookup env buf env.me else .ok none

def invalidRemote : String := "Invalid remote pointer"

def found (mreg : Option Gmr) (msg : String) : Except String Gmr :=
  match mreg with
  | some r => .ok r
  | none => .error msg

theorem found_eq_ok {m : Option Gmr} {msg : String} {mreg : Gmr} :
    found m msg = .ok mreg ↔ m = some mreg := by
  cases m <;> simp [found]

def parmciGet (env : Env) (src dst : Int) (size : Nat) (target : Nat) : Script Act Unit := do
  let srcMreg ← lift (gmrLookup env src target)
  let dstMreg ← lift (guardLookup env dst)
  let srcMreg ← lift (found srcMreg invalidRemote)
  if target = env.me ∧ dstMreg = none then
    armciCopy src dst size
  else if dstMreg = none then
    gmrGet env srcMreg src dst size target none
    gmrFlush env srcMreg target false
  else
    let dstBuf ← allocMem env size "dst_buf != NULL"
    gmrGet env srcMreg src dstBuf size target none
    gmrFlush env srcMreg target false
    armciCopy dstBuf dst size
    emit (.freeMem dstBuf)

def parmciPut (env : Env) (src dst : Int) (size : Nat) (target : Nat) : Script Act Unit := do
  let dstMreg ← lift (gmrLookup env dst target)
  let srcMreg ← lift (guardLookup env src)
  let dstMreg ← lift (found dstMreg invalidRemote)
  if target = env.me ∧ srcMreg = none then
    armciCopy src dst size
  else if srcMreg = none then
    gmrPut env dstMreg src dst size target none
    gmrFlush env dstMreg target true
  else
    let srcBuf ← allocMem env size "src_buf != NULL"
    armciCopy src srcBuf size
    gmrPut env dstMreg srcBuf dst size target none
    gmrFlush env dstMreg target true
    emit (.freeMem srcBuf)

def scaledSource (env : Env) (scale : Scale) (src : Int) (bytes : Nat) : Script Act Int := do
  if scale.accIsScaled then
    let srcBuf ← allocMem env bytes "src_buf != NULL"
    bufAccScale src srcBuf bytes scale
    return srcBuf
  else return src

/-- The source of `PARMCI_Acc` and `PARMCI_NbAcc`: scaled, copied or as it is. -/
def accSource (env : Env) (scale : Scale) (src : Int) (bytes : Nat) (srcMreg : Option Gmr)
    (dstMreg : Gmr) : Script Act Int := do
  let srcBuf ← scaledSource env scale src bytes
  if srcBuf = src ∧ (env.cfg.shrBufMethod = .copy ∨ srcMreg = some dstMreg) then
    let srcBuf ← allocMem env bytes "src_buf != NULL"
    armciCopy src srcBuf bytes
    return srcBuf
  else return srcBuf

theorem emits_accSource (env : Env) (scale : Scale) (src : Int) (bytes : Nat)
    (srcMreg : Option Gmr) (dstMreg : Gmr) :
    Emits Act.Local (accSource env scale src bytes srcMreg dstMreg) := by
  refine emits_bind ?_ fun srcBuf => emits_ite (fun _ => ?_) fun _ => emits_pure _
  · refine emits_ite (fun _ => ?_) fun _ => emits_pure _
    exact emits_bind (emits_allocMem _ _ _) fun _ =>
      emits_bind (emits_bufAccScale _ _ _ _) fun _ => emits_pure _
  · exact emits_bind (emits_allocMem _ _ _) fun _ =>
      emits_bind (emits_armciCopy _ _ _) fun _ => emits_pure _

def parmciAcc (env : Env) (scale : Scale) (src dst : Int) (bytes : Nat) (proc : Nat) :
    Script Act Unit := do
  let srcMreg ← lift (guardLookup env src)
  let dstMreg ← lift (gmrLookup env dst proc)
  let dstMreg ← lift (found dstMreg invalidRemote)
  let srcBuf ← accSource env scale src bytes srcMreg dstMreg
  let type := scale.accTypeTranslate
  require (bytes % type.size = 0) "Transfer size is not a multiple of the datatype size"
  gmrAccumulate env dstMreg srcBuf dst (bytes / type.size) type proc none
  gmrFlush env dstMreg proc true
  if srcBuf ≠ src then emit (.freeMem srcBuf) else pure ()

-- ------------------------------
-- Nonblocking
-- ------------------------------

def parmciNbPut (env : Env) (src dst : Int) (size : Nat) (target : Nat) (handle : Option Nat) :
    Script Act Unit := do
  let dstMreg ← lift (gmrLookup env dst target)
  let srcMreg ← lift (guardLookup env src)
  let dstMreg ← lift (found dstMreg invalidRemote)
  if target = env.me ∧ srcMreg = none then armciCopy src dst size
  else gmrPut env dstMreg src dst size target handle
  gmrProgress env

def parmciNbGet (env : Env) (src dst : Int) (size : Nat) (target : Nat) (handle : Option Nat) :
    Script Act Unit := do
  let srcMreg ← lift (gmrLookup env src target)
  let dstMreg ← lift (guardLookup env dst)
  let srcMreg ← lift (found srcMreg invalidRemote)
  if target = env.me ∧ dstMreg = none then armciCopy src dst size
  else gmrGet env srcMreg src dst size target handle
  gmrProgress env

def parmciNbAcc (env : Env) (scale : Scale) (src dst : Int) (bytes : Nat) (target : Nat)
    (handle : Option Nat) : Script Act Unit := do
  let srcMreg ← lift (guardLookup env src)
  let dstMreg ← lift (gmrLookup env dst target)
  let dstMreg ← lift (found dstMreg invalidRemote)
  let srcBuf ← accSource env scale src bytes srcMreg dstMreg
  let type := scale.accTypeTranslate
  require (bytes % type.size = 0) "Transfer size is not a multiple of the datatype size"
  gmrAccumulate env dstMreg srcBuf dst (bytes / type.size) type target handle
  if srcBuf ≠ src then
    gmrFlush env dstMreg target true
    emit (.freeMem srcBuf)
  gmrProgress env

end ArmciMpi
