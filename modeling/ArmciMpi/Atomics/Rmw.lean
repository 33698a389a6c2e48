import ArmciMpi.Transfer.Returns

/-!
# Read-modify-write

`PARMCI_Rmw` performs one atomic operation of MPI on an `int` or a `long` and
waits for its result. The settings say which operation it is and how it is
completed: a request-based one is waited for, and flushed only if it replaces
the element or `ARMCI_FLUSH_REQUEST_ATOMICS` is set; `MPI_Fetch_and_op` is
always flushed, at least locally. `parmciRmw_ok` says what a call does.
-/

namespace ArmciMpi

open Lib Script

/-- The operations of `PARMCI_Rmw`, and any other number. -/
inductive RmwOp
  | fetchAndAdd
  | fetchAndAddLong
  | swap
  | swapLong
  | other (op : Int)
  deriving DecidableEq

/-- `MPI_SUM` and `MPI_REPLACE`. -/
inductive AtomicOp
  | sum
  | replace
  deriving DecidableEq

/-- The settings that only `gmr_fetch_and_op` reads. -/
structure AtomicSettings where
  useRequestAtomics : Bool
  flushRequestAtomics : Bool

structure Atomic where
  win : Win
  target : Int
  disp : Int
  type : BaseType
  op : AtomicOp
  deriving DecidableEq

/-- What `PARMCI_Rmw` does. The operand and the result are its own variables. -/
inductive RmwAct
  /-- The operand is read from `ploc`. -/
  | load (type : BaseType) (ploc : Int)
  | operand (type : BaseType) (value : Int)
  /-- `MPI_Rget_accumulate` if there is a request, else `MPI_Fetch_and_op`. -/
  | atomic (request : Bool) (a : Atomic)
  /-- `MPI_Wait` for the request. -/
  | wait
  | flush (win : Win) (target : Int)
  | flushLocal (win : Win) (target : Int)
  /-- The result is written to `ploc`. -/
  | store (type : BaseType) (ploc : Int)
  deriving DecidableEq

namespace RmwOp

def isLong (op : RmwOp) : Bool := op = .swapLong ∨ op = .fetchAndAddLong

def isSwap (op : RmwOp) : Bool := op = .swap ∨ op = .swapLong

def type (op : RmwOp) : BaseType := if op.isLong then .long else .int

def rop (op : RmwOp) : Except String AtomicOp :=
  match op with
  | .swap | .swapLong => .ok .replace
  | .fetchAndAdd | .fetchAndAddLong => .ok .sum
  | .other op => .error ("invalid operation (" ++ toString op ++ ")")

end RmwOp

def gmrFetchAndOp (env : Env) (cfg : AtomicSettings) (mreg : Gmr) (dst : Int) (type : BaseType)
    (op : AtomicOp) (proc : Nat) : Script RmwAct Unit := do
  let grpProc ← lift (translateAbsoluteToGroup env.world mreg.group proc)
  require (0 ≤ grpProc) "grp_proc >= 0"
  let win ← lift mreg.getWindow
  let disp := dst - (mreg.slice proc).base
  require (0 ≤ disp ∧ disp < (mreg.slice proc).size) "Invalid remote address"
  require (disp ≤ (mreg.slice proc).size) "Transfer is out of range"
  if cfg.useRequestAtomics then
    emit (.atomic true ⟨win, grpProc, disp, type, op⟩)
    emit .wait
    if op = .replace ∨ cfg.flushRequestAtomics then emit (.flush win grpProc) else pure ()
  else
    emit (.atomic false ⟨win, grpProc, disp, type, op⟩)
    if env.cfg.endToEndFlush then emit (.flush win grpProc) else emit (.flushLocal win grpProc)

def parmciRmw (env : Env) (cfg : AtomicSettings) (op : RmwOp) (ploc prem value : Int) (proc : Nat) :
    Script RmwAct Unit := do
  let _ ← lift (guardLookup env ploc)
  let dstMreg ← lift (gmrLookup env prem proc)
  let dstMreg ← lift (found dstMreg invalidRemote)
  let rop ← lift op.rop
  if op.isSwap then emit (.load op.type ploc) else emit (.operand op.type value)
  gmrFetchAndOp env cfg dstMreg prem op.type rop proc
  emit (.store op.type ploc)

-- ------------------------------
-- What a call does
-- ------------------------------

def completion (env : Env) (cfg : AtomicSettings) (a : Atomic) : List RmwAct :=
  if cfg.useRequestAtomics then
    .wait :: if a.op = .replace ∨ cfg.flushRequestAtomics then [.flush a.win a.target] else []
  else if env.cfg.endToEndFlush then [.flush a.win a.target] else [.flushLocal a.win a.target]

def operandAct (op : RmwOp) (ploc value : Int) : RmwAct :=
  if op.isSwap then .load op.type ploc else .operand op.type value

/-- All that a call with the atomic operation `a` does. -/
def rmwActs (env : Env) (cfg : AtomicSettings) (op : RmwOp) (ploc value : Int) (a : Atomic) :
    List RmwAct :=
  operandAct op ploc value :: .atomic cfg.useRequestAtomics a :: completion env cfg a ++
    [.store op.type ploc]

theorem RmwOp.rop_replace {op : RmwOp} {rop : AtomicOp} (h : op.rop = .ok rop) :
    rop = .replace ↔ op.isSwap = true := by
  cases op <;> cases h <;> decide

section
variable {env : Env} {cfg : AtomicSettings} {mreg : Gmr} {proc : Nat} {win : Win} {g : Nat}
  {op : RmwOp} {rop : AtomicOp} {dst ploc prem value : Int}

theorem gmrFetchAndOp_ok (hr : Reaches env mreg proc win g) (hin : (mreg.slice proc).Contains dst)
    (type : BaseType) (h : List RmwAct) :
    gmrFetchAndOp env cfg mreg dst type rop proc h =
      (.ok (), .atomic cfg.useRequestAtomics ⟨win, g, dst - (mreg.slice proc).base, type, rop⟩ ::
        completion env cfg ⟨win, g, dst - (mreg.slice proc).base, type, rop⟩) := by
  obtain ⟨hle, hlt⟩ := hin
  simp only [gmrFetchAndOp, translate_member hr.ok.group hr.rank, hr.ok.getWindow, lift_ok_bind]
  rw [require_true (by omega), pure_bind_run, require_true ⟨by omega, by omega⟩, pure_bind_run,
    require_true (by omega), pure_bind_run, completion]
  cases cfg.useRequestAtomics with
  | true =>
    simp only [if_true, emit_bind_run]
    split <;> rfl
  | false =>
    simp only [Bool.false_eq_true, if_false, emit_bind_run]
    split <;> rfl

theorem parmciRmw_ok (hlook : gmrLookup env prem proc = .ok (some mreg))
    (hr : Reaches env mreg proc win g) (hop : op.rop = .ok rop) (h : List RmwAct) :
    parmciRmw env cfg op ploc prem value proc h =
      (.ok (), rmwActs env cfg op ploc value
        ⟨win, g, prem - (mreg.slice proc).base, op.type, rop⟩) := by
  obtain ⟨src, hguard⟩ := guardLookup_returns env ploc
  have hfetch : ∀ h, gmrFetchAndOp env cfg mreg prem op.type rop proc h = _ :=
    gmrFetchAndOp_ok hr (lookupIn_some hlook).2 op.type
  simp only [parmciRmw, hguard, hlook, found, hop, lift_ok_bind, rmwActs, operandAct]
  cases op.isSwap with
  | true =>
    simp only [if_true, bind_run, hfetch]
    rfl
  | false =>
    simp only [Bool.false_eq_true, if_false, bind_run, hfetch]
    rfl

theorem parmciRmw_eq_ok {h acts : List RmwAct}
    (hrun : parmciRmw env cfg op ploc prem value proc h = (.ok (), acts)) :
    ∃ a : Atomic, a.type = op.type ∧ op.rop = .ok a.op ∧ acts = rmwActs env cfg op ploc value a := by
  obtain ⟨_, -, hrun₁⟩ := lift_bind_eq_ok.mp hrun
  obtain ⟨r, hlook, hrun₂⟩ := lift_bind_eq_ok.mp hrun₁
  obtain ⟨mreg, hfound, hrun₃⟩ := lift_bind_eq_ok.mp hrun₂
  obtain ⟨rop, hop, -⟩ := lift_bind_eq_ok.mp hrun₃
  rw [found_eq_ok.mp hfound] at hlook
  obtain ⟨win, g, hr⟩ := gmrLookup_reaches hlook
  rw [parmciRmw_ok hlook hr hop h] at hrun
  cases hrun
  exact ⟨_, rfl, hop, rfl⟩

end

theorem flush_mem_completion {env : Env} {cfg : AtomicSettings} {a : Atomic}
    (hflush : env.cfg.endToEndFlush = true)
    (hcfg : cfg.useRequestAtomics = false ∨ cfg.flushRequestAtomics = true ∨ a.op = .replace) :
    .flush a.win a.target ∈ completion env cfg a := by
  rw [completion, if_pos hflush]
  split
  · rename_i huse
    have hfull : a.op = .replace ∨ cfg.flushRequestAtomics = true := by
      rcases hcfg with h | h | h
      · rw [h] at huse
        cases huse
      · exact .inr h
      · exact .inl h
    rw [if_pos hfull]
    exact List.mem_cons_of_mem _ List.mem_cons_self
  · exact List.mem_cons_self

theorem completion_not_atomic {env : Env} {cfg : AtomicSettings} {a : Atomic} :
    ∀ x ∈ completion env cfg a, ∀ r b, x ≠ .atomic r b := by
  unfold completion
  split
  · split <;> simp
  · split <;> simp

end ArmciMpi
