import ArmciMpi.Lib.Stateful
import ArmciMpi.Transfer.Calls

/-!
# Message calls on one buffer

A message function prepares the caller's buffer, calls MPI once and finishes the
buffer. A `Machine` is the process in such a call: the actions it has performed,
the memory and the reductions it has taken part in. What MPI delivers is an
argument of the functions, so that their theorems are for everything it may
deliver.

`prepare_run` and `finish_run` say what preparing and finishing do to the memory;
`store_finish` is for the functions that put their result into the prepared
buffer.
-/

namespace ArmciMpi

open Lib Stateful

/-- The arguments of a call of `MPI_Allreduce`. -/
structure Reduction (O V : Type) where
  comm : Comm
  op : O
  data : V

structure Machine (O V : Type) where
  acts : List Act
  mem : Mem
  calls : List (Reduction O V)

abbrev MsgM (O V : Type) := Stateful (Machine O V)

variable {O V α : Type}

namespace Machine

def after (σ : Machine O V) (me : Nat) (acts : List Act) : Machine O V :=
  { σ with acts := σ.acts ++ acts, mem := Xfer.applyAll (actXfers me acts) σ.mem }

def script (env : Env) (p : Script Act α) : MsgM O V α := fun σ =>
  match p σ.acts with
  | (.ok x, acts) => .ok (x, σ.after env.me acts)
  | (.error e, _) => .error e

/-- `n` bytes of the process. -/
def load (env : Env) (addr : Int) (n : Nat) : MsgM O V (List UInt8) := fun σ =>
  .ok (bytesAt σ.mem (env.me, addr) n, σ)

def store (env : Env) (addr : Int) (bytes : List UInt8) : MsgM O V Unit := fun σ =>
  .ok ((), { σ with mem := writeBytes σ.mem (env.me, addr) bytes })

/-- `MPI_Allreduce` that delivers `reply`. -/
def allreduce (comm : Option Comm) (op : O) (data reply : V) : MsgM O V V := fun σ =>
  match comm with
  | some comm => .ok (reply, { σ with calls := σ.calls ++ [⟨comm, op, data⟩] })
  | none => .error "MPI_COMM_NULL"

end Machine

open Machine

theorem script_ok {env : Env} {p : Script Act α} {σ : Machine O V} {x : α} {acts : List Act}
    (h : p σ.acts = (.ok x, acts)) : script env p σ = .ok (x, σ.after env.me acts) := by
  rw [script, h]

-- ------------------------------
-- Preparing and finishing a buffer
-- ------------------------------

def Guarded (env : Env) (x : Int) : Prop :=
  env.cfg.shrBufMethod ≠ .noguard ∧ gmrLookup env x env.me ≠ .ok none

instance (env : Env) (x : Int) : Decidable (Guarded env x) :=
  inferInstanceAs (Decidable (_ ∧ _))

section
variable {env : Env} {arena : Set Int} {x b : Int} {n : Nat} {copyIn : Bool} {σ σ₁ : Machine O V}

theorem preparePrivate_guarded (hcan : env.CanAlloc n) (hlook : gmrLookup env x env.me ≠ .ok none)
    (copyIn : Bool) (h : List Act) : preparePrivate env copyIn n x h =
      (.ok (env.allocMem h n), copyActs copyIn n x (env.allocMem h n)) := by
  obtain ⟨r, hr⟩ := lookup_me env x
  cases r with
  | none => exact absurd hr hlook
  | some mreg =>
    rw [preparePrivate, hr, Script.lift_ok_bind]
    cases copyIn
    · exact Script.bind_ok (allocMem_ok (hcan h) _) rfl
    · exact Script.bind_ok (allocMem_ok (hcan h) _) rfl

/-- What preparing leaves: the caller's buffer, or a new one that holds a copy if it is
prepared for reading. -/
inductive Ready (env : Env) (arena : Set Int) (copyIn : Bool) (x : Int) (n : Nat)
    (σ : Machine O V) : Int → Machine O V → Prop
  | kept (hg : ¬ Guarded env x) : Ready env arena copyIn x n σ x σ
  | copied {b : Int} {σ₁ : Machine O V} (hg : Guarded env x) (hne : x ≠ b)
      (hin : block (env.me, b) n ⊆ scratch env.me arena)
      (hcopy : copyIn = true → bytesAt σ₁.mem (env.me, b) n = bytesAt σ.mem (env.me, x) n)
      (hkeep : copyIn = false → σ₁.mem = σ.mem)
      (hframe : Set.EqOn σ₁.mem σ.mem (block (env.me, b) n)ᶜ) (hcalls : σ₁.calls = σ.calls) :
      Ready env arena copyIn x n σ b σ₁

theorem Ready.user (hr : Ready env arena copyIn x n σ b σ₁)
    (hx : Disjoint (block (env.me, x) n) (scratch env.me arena)) :
    bytesAt σ₁.mem (env.me, x) n = bytesAt σ.mem (env.me, x) n := by
  cases hr with
  | kept hg => rfl
  | copied hg hne hin hcopy hkeep hframe hcalls =>
    exact bytesAt_congr fun l hl => hframe fun hb => Set.disjoint_left.mp hx hl (hin hb)

theorem Ready.bytes (hr : Ready env arena true x n σ b σ₁) :
    bytesAt σ₁.mem (env.me, b) n = bytesAt σ.mem (env.me, x) n := by
  cases hr with
  | kept hg => rfl
  | copied hg hne hin hcopy hkeep hframe hcalls => exact hcopy rfl

theorem Ready.calls (hr : Ready env arena copyIn x n σ b σ₁) : σ₁.calls = σ.calls := by
  cases hr with
  | kept hg => rfl
  | copied hg hne hin hcopy hkeep hframe hcalls => exact hcalls

theorem after_nil (σ : Machine O V) (me : Nat) : σ.after me [] = σ := by
  simp [Machine.after, actXfers, actSteps, stepXfers]

theorem collect_one {f : Int → Script Act Int} {h acts : List Act} (hrun : f x h = (.ok b, acts)) :
    Script.collect f [x] h = (.ok [b], acts) := by
  rw [← List.append_nil acts]
  exact Script.bind_ok hrun rfl

theorem copy_bytes (m : Mem) (me : Nat) (src dst : Int) (n : Nat) :
    bytesAt (Xfer.applyAll (actXfers me [.copy src dst n]) m) (me, dst) n = bytesAt m (me, src) n :=
  move_bytes (fun _ _ h _ => h) m m (me, src) (me, dst)

theorem copy_frame (m : Mem) (me : Nat) (src dst : Int) (n : Nat) :
    Set.EqOn (Xfer.applyAll (actXfers me [.copy src dst n]) m) m (block (me, dst) n)ᶜ :=
  fun _ hl => if_neg hl

theorem prepare_run (ha : env.Allocs arena) (hcan : env.CanAlloc n) (hx : x ∉ arena) (copyIn : Bool)
    (σ : Machine O V) : ∃ b σ₁, script env (if copyIn then bufPrepareReadVec env [x] n
      else bufPrepareWriteVec env [x] n) σ = .ok ([b], σ₁) ∧ Ready env arena copyIn x n σ b σ₁ := by
  have hprep : (if copyIn then bufPrepareReadVec env [x] n else bufPrepareWriteVec env [x] n) =
      if env.cfg.shrBufMethod ≠ .noguard then Script.collect (preparePrivate env copyIn n) [x]
      else pure [x] := by
    cases copyIn <;> rfl
  rw [hprep]
  by_cases hguard : env.cfg.shrBufMethod ≠ .noguard
  · rw [if_pos hguard]
    by_cases hlook : gmrLookup env x env.me = .ok none
    · have hone : preparePrivate env copyIn n x σ.acts = (.ok x, []) := by
        rw [preparePrivate, hlook, Script.lift_ok_bind]
        rfl
      refine ⟨x, σ, ?_, .kept fun hg => hg.2 hlook⟩
      rw [script_ok (collect_one hone), after_nil]
    · have hone := preparePrivate_guarded hcan hlook copyIn σ.acts
      refine ⟨_, _, script_ok (collect_one hone), ?_⟩
      have hgives : env.Gives σ.acts n (env.allocMem σ.acts n) := ⟨rfl, hcan σ.acts⟩
      have hne : x ≠ env.allocMem σ.acts n := fun heq => hx (heq ▸ ha.mem hgives)
      have hin := ha.inside hgives
      cases copyIn with
      | true =>
        exact .copied ⟨hguard, hlook⟩ hne hin (fun _ => copy_bytes σ.mem env.me x _ n)
          (fun hf => absurd hf.symm Bool.false_ne_true) (copy_frame σ.mem env.me x _ n) rfl
      | false =>
        exact .copied ⟨hguard, hlook⟩ hne hin (fun hf => absurd hf Bool.false_ne_true)
          (fun _ => rfl) (fun _ _ => rfl) rfl
  · rw [if_neg hguard]
    refine ⟨x, σ, ?_, .kept fun hg => hguard hg.1⟩
    rw [script_ok (Script.pure_run _ _), after_nil]

theorem finish_kept (env : Env) (x : Int) (n : Nat) (σ : Machine O V) :
    script env (bufFinishWriteVec env [x] [x] n) σ = .ok ((), σ) := by
  have hrun : bufFinishWriteVec env [x] [x] n σ.acts = (.ok (), []) := by
    unfold bufFinishWriteVec
    split
    · simp [Script.forEach]
    · rfl
  rw [script_ok hrun, after_nil]

theorem finish_run (hg : Guarded env x) (hne : x ≠ b) (n : Nat) (σ : Machine O V) :
    ∃ σ', script env (bufFinishWriteVec env [x] [b] n) σ = .ok ((), σ') ∧
      bytesAt σ'.mem (env.me, x) n = bytesAt σ.mem (env.me, b) n ∧
      Set.EqOn σ'.mem σ.mem (block (env.me, x) n)ᶜ ∧ σ'.calls = σ.calls := by
  obtain ⟨hguard, hlook⟩ := hg
  obtain ⟨r, hr⟩ := lookup_me env x
  have hsome : r ≠ none := fun hnone => hlook (hnone ▸ hr)
  have hrun : bufFinishWriteVec env [x] [b] n σ.acts = (.ok (), [.copy b x n, .freeMem b]) := by
    rw [bufFinishWriteVec, if_pos hguard]
    simp only [List.zip_cons_cons, List.zip_nil_right, Script.forEach, if_pos hne, finishWrite, hr]
    rw [Script.lift_ok_bind, Script.require_true hsome]
    rfl
  exact ⟨_, script_ok hrun, copy_bytes _ _ _ _ _, copy_frame _ _ _ _ _, rfl⟩

/-- A function puts bytes into the prepared buffer and finishes it. In a buffer prepared
for writing only, the rest of the caller's buffer becomes what the new one held. -/
theorem store_finish (hr : Ready env arena copyIn x n σ b σ₁) {bytes : List UInt8}
    (hlen : bytes.length ≤ n) {σ₂ : Machine O V}
    (hmem : σ₂.mem = writeBytes σ₁.mem (env.me, b) bytes) :
    ∃ σ', script env (bufFinishWriteVec env [x] [b] n) σ₂ = .ok ((), σ') ∧
      σ'.calls = σ₂.calls ∧
      (∀ l, l ∉ scratch env.me arena → l ∉ block (env.me, x) n → σ'.mem l = σ.mem l) ∧
      ∀ i < n, σ'.mem (env.me, x + (i : Nat)) = if i < bytes.length then bytes.getD i 0
        else if Guarded env x ∧ copyIn = false then σ.mem (env.me, b + (i : Nat))
        else σ.mem (env.me, x + (i : Nat)) := by
  have hout : ∀ {a : Int} {i : Nat}, bytes.length ≤ i →
      (env.me, a + (i : Int)) ∉ block (env.me, a) bytes.length := by
    rintro a i hi ⟨-, -, hlt⟩
    exact absurd hlt (by show ¬ a + (i : Int) < a + (bytes.length : Int); omega)
  cases hr with
  | kept hg =>
    refine ⟨σ₂, finish_kept env x n σ₂, rfl, fun l _ hl => ?_, fun i hi => ?_⟩
    · rw [hmem]
      exact writeBytes_frame _ _ _ fun hin => hl (block_subset rfl (le_refl _)
        (by show x + (bytes.length : Int) ≤ x + (n : Int); omega) hin)
    · rw [hmem, if_neg (fun hc : Guarded env x ∧ copyIn = false => hg hc.1)]
      split
      · rename_i hlt
        exact writeBytes_get _ (env.me, x) hlt
      · rename_i hge
        exact writeBytes_frame _ _ _ (hout (Nat.le_of_not_lt hge))
  | copied hg hne hin hcopy hkeep hframe hcalls =>
    obtain ⟨σ', hrun, hbytes, hframe', hcalls'⟩ := finish_run hg hne n σ₂
    have hsub : block (env.me, b) bytes.length ⊆ block (env.me, b) n := block_subset rfl (le_refl _)
      (by show b + (bytes.length : Int) ≤ b + (n : Int); omega)
    refine ⟨σ', hrun, hcalls', fun l hl hlx => ?_, fun i hi => ?_⟩
    · have hlb : l ∉ block (env.me, b) n := fun h => hl (hin h)
      rw [hframe' hlx, hmem, writeBytes_frame _ _ _ fun h => hlb (hsub h), hframe hlb]
    · rw [bytesAt_apply hbytes hi, hmem]
      split
      · rename_i hlt
        exact writeBytes_get _ (env.me, b) hlt
      · rename_i hge
        rw [writeBytes_frame _ _ _ (hout (Nat.le_of_not_lt hge))]
        cases copyIn with
        | true => rw [if_neg (fun hc => absurd hc.2.symm Bool.false_ne_true),
            bytesAt_apply (hcopy rfl) hi]
        | false => rw [if_pos ⟨hg, rfl⟩, hkeep rfl]

end

def copyState : GlobalState := { defaultState with shrBufMethod := .copy }

end ArmciMpi
