import ArmciMpi.Lib.Copies
import ArmciMpi.Transfer.Phases

/-!
# Windows with a private and a public copy

MPI may keep the part of a window that a process exposes in two copies, one for
its own loads and stores and one for the operations of all processes.
`gmr_create` asks for the memory model of the window, and `gmr_sync` calls
`MPI_Win_sync` where the copies are not one. `PARMCI_Barrier` synchronises after
`MPI_Barrier`, `armci_msg_barrier` does so between two calls of `MPI_Barrier`, if
`ARMCI_MSG_BARRIER_SYNCS` is set. In between, `ARMCI_Access_begin` and
`ARMCI_Access_end` synchronise one region.

A process that has left `PARMCI_Barrier` may therefore be early: the owner of a
region need not have synchronised what it stored before the barrier.
`barrier_coherent_iff` says how many barriers have to pass unless the owner calls
`ARMCI_Access_end` after its stores, in which case one is enough.
-/

namespace ArmciMpi

open Lib Lib.Copies Script

namespace Separate

/-- The code around the calls of `MPI_Barrier`: before it, after it, and whether it is called
again at the end. -/
structure BarrierCode where
  before : Env → Script Act Unit
  after : Env → Script Act Unit
  again : Bool

def parmciBarrier : BarrierCode := ⟨parmciAllFence, armciiSync, false⟩

def parmciMsgBarrier (msgBarrierSyncs : Bool) : BarrierCode :=
  if msgBarrierSyncs then ⟨fun _ => pure (), armciiSync, true⟩
  else ⟨fun _ => pure (), fun _ => pure (), false⟩

/-- The caller completes its operations with `PARMCI_AllFence` first. -/
def BarrierCode.fenced (b : BarrierCode) : BarrierCode :=
  { b with before := fun env => do
      parmciAllFence env
      b.before env }

/-- The common body of `PARMCI_Access_begin` and `PARMCI_Access_end`. -/
def accessSync (env : Env) (ptr : Int) : Script Act Unit := do
  match ← lift (gmrLookup env ptr env.me) with
  | some mreg => gmrSync mreg
  | none => abort "Invalid remote pointer"

def parmciAccessBegin : Env → Int → Script Act Unit := accessSync

def parmciAccessEnd : Env → Int → Script Act Unit := accessSync

def flushedWin : Act → Option Nat
  | .flushAll win => some win.id
  | _ => none

def syncedWin : Act → Option Nat
  | .winSync win => some win.id
  | _ => none

/-- Processes with their regions, and the memory model MPI reports for each window. -/
structure Windows (n : Nat) where
  env : Fin n → Env
  unified : Nat → Bool
  me : ∀ p, (env p).me = p
  model : ∀ p, ∀ mreg ∈ (env p).regions, ∀ win, mreg.window = some win →
    mreg.unified = unified win.id

structure Cell (W : Windows n) where
  home : Fin n
  mreg : Gmr
  addr : Int
  live : mreg ∈ (W.env home).regions
  inside : (mreg.slice home).Contains addr
  deriving DecidableEq

section
variable {n : Nat} {K : Type} {W : Windows n}

def Cell.window (c : Cell W) : Nat := (c.mreg.window.map Win.id).getD 0

/-- The bytes of one process in one window that are kept together, however MPI does that. -/
abbrev Line (grain : Cell W → K) : Type :=
  { l : Fin n × Nat × K // ∃ c, (c.home, c.window, grain c) = l }

def Windows.layout (W : Windows n) (b : BarrierCode) (grain : Cell W → K) :
    Layout (Fin n) Nat (Line grain) (Cell W) where
  line c := ⟨(c.home, c.window, grain c), c, rfl⟩
  home l := l.1.1
  region l := l.1.2.1
  unified := W.unified
  accesses p r := ∃ access ∈ [parmciAccessBegin, parmciAccessEnd], ∃ ptr,
    r ∈ (access (W.env p) ptr []).2.filterMap syncedWin
  flushes p := (b.before (W.env p) []).2.filterMap flushedWin
  syncs p := (b.after (W.env p) []).2.filterMap syncedWin
  twice := b.again

theorem layout_line_surjective (b : BarrierCode) (grain : Cell W → K) :
    Function.Surjective (W.layout b grain).line := by
  rintro ⟨l, c, rfl⟩
  exact ⟨c, rfl⟩

theorem Cell.window_eq (c : Cell W) : ∃ win, c.mreg.window = some win ∧ win.id = c.window := by
  obtain ⟨win, hok⟩ := (W.env c.home).regions_ok c.mreg c.live
  exact ⟨win, hok.window, by simp [window, hok.window]⟩

theorem Cell.unified_eq (c : Cell W) : c.mreg.unified = W.unified c.window := by
  obtain ⟨win, hwin, hid⟩ := c.window_eq
  rw [W.model c.home c.mreg c.live win hwin, hid]

/-- `ARMCII_Sync` synchronises the windows with two copies. -/
theorem mem_synced {c : Cell W} (hc : c.mreg.unified = false) :
    c.window ∈ (armciiSync (W.env c.home) []).2.filterMap syncedWin := by
  obtain ⟨win, hwin, hid⟩ := c.window_eq
  rw [Phases.armciiSync_ok]
  refine List.mem_filterMap.mpr ⟨.winSync win, List.mem_flatMap.mpr ⟨c.mreg, c.live, ?_⟩, ?_⟩
  · simp [hc, hwin]
  · simp [syncedWin, hid]

theorem enough_iff {b : BarrierCode} {grain : Cell W → K} {lag : Nat → Nat}
    {Syncs : Cell W → Prop}
    (hsyncs : ∀ c : Cell W, c.mreg.unified = false →
      (c.window ∈ (b.after (W.env c.home) []).2.filterMap syncedWin ↔ Syncs c)) :
    (W.layout b grain).Enough lag ↔ ∀ c : Cell W, c.mreg.unified = true ∨
      Syncs c ∧ (if b.again then 1 else 2) ≤ lag c.window := by
  have hcell : ∀ c : Cell W, W.unified c.window = true ∨
      c.window ∈ (b.after (W.env c.home) []).2.filterMap syncedWin ∧
        (if b.again then 1 else 2) ≤ lag c.window ↔
      c.mreg.unified = true ∨ Syncs c ∧ (if b.again then 1 else 2) ≤ lag c.window := by
    intro c
    rw [← c.unified_eq]
    cases hu : c.mreg.unified with
    | true => simp
    | false => simp only [Bool.false_eq_true, false_or, hsyncs c hu]
  constructor
  · intro h c
    exact (hcell c).mp (h ((W.layout b grain).line c))
  · rintro h ⟨_, c, rfl⟩
    exact (hcell c).mpr (h c)

end

section
variable {n : Nat} {K : Type} [DecidableEq K] (W : Windows (n + 2)) (grain : Cell W → K)
  (lag : Nat → Nat) (mem : Cell W → UInt8)

omit [DecidableEq K] in
theorem layout_twice {b : BarrierCode} (hb : b.again = true → b.after = armciiSync)
    (htwice : (W.layout b grain).twice = true) (l : Line grain)
    (hl : (W.layout b grain).unified ((W.layout b grain).region l) = false) :
    (W.layout b grain).region l ∈ (W.layout b grain).syncs ((W.layout b grain).home l) := by
  obtain ⟨_, c, rfl⟩ := l
  show c.window ∈ (b.after (W.env c.home) []).2.filterMap syncedWin
  rw [hb htwice]
  exact mem_synced (c.unified_eq.trans hl)

theorem layout_coherent (b : BarrierCode) (Syncs : Cell W → Prop)
    (hb : b.again = true → b.after = armciiSync)
    (hsyncs : ∀ c : Cell W, c.mreg.unified = false →
      (c.window ∈ (b.after (W.env c.home) []).2.filterMap syncedWin ↔ Syncs c)) :
    Coherent (W.layout b grain) lag mem ↔ ∀ c : Cell W, c.mreg.unified = true ∨
      Syncs c ∧ (if b.again then 1 else 2) ≤ lag c.window := by
  have : Nontrivial UInt8 := ⟨0, 1, by decide⟩
  rw [coherent_iff _ _ _ (layout_line_surjective b grain) (layout_twice W grain hb)]
  exact enough_iff hsyncs

/-- With `PARMCI_Barrier` at the end of every phase, all loads of an owner and all operations
of others see what was written last exactly if two barriers pass between a store into memory
with two copies and an operation on the bytes kept together with it. With `PARMCI_AllFence` and
`armci_msg_barrier` one is enough if the message barrier synchronises, and no number is if it
does not. A store after which the owner has synchronised the region with `ARMCI_Access_end`
needs only one in the first two cases. -/
theorem barrier_coherent_iff :
    (Coherent (W.layout parmciBarrier grain) lag mem ↔
      ∀ c : Cell W, c.mreg.unified = true ∨ 2 ≤ lag c.window) ∧
    (Coherent (W.layout (parmciMsgBarrier true).fenced grain) lag mem ↔
      ∀ c : Cell W, c.mreg.unified = true ∨ 1 ≤ lag c.window) ∧
    (Coherent (W.layout (parmciMsgBarrier false).fenced grain) lag mem ↔
      ∀ c : Cell W, c.mreg.unified = true) := by
  refine ⟨?_, ?_, ?_⟩
  · rw [layout_coherent W grain lag mem parmciBarrier (fun _ => True) (fun h => by cases h)
      fun c hc => iff_true_intro (mem_synced hc)]
    simp [parmciBarrier]
  · rw [layout_coherent W grain lag mem (parmciMsgBarrier true).fenced (fun _ => True)
      (fun _ => rfl) fun c hc => iff_true_intro (mem_synced hc)]
    simp [parmciMsgBarrier, BarrierCode.fenced]
  · rw [layout_coherent W grain lag mem (parmciMsgBarrier false).fenced (fun _ => False)
      (fun h => by cases h) fun c _ => iff_false_intro List.not_mem_nil]
    simp

end

def pairWindows : Windows 2 where
  env p :=
    { pairEnv defaultState p 0 with
      regions := [{ pairRegion defaultState p with unified := false }]
      regions_ok := by
        intro r hr
        rw [List.mem_singleton.mp hr]
        exact ⟨pairWin, { pairRegion_ok defaultState p with }⟩ }
  unified _ := false
  me _ := rfl
  model p mreg hmem win _ := by rw [List.mem_singleton.mp hmem]

/-- What a process stores before one `PARMCI_Barrier` need not be seen after it, unlike after
the fenced message barrier. -/
theorem barrier_coherent_iff_pair :
    ¬ Coherent (pairWindows.layout parmciBarrier id) (fun _ => 1) (fun _ => (7 : UInt8)) ∧
    Coherent (pairWindows.layout parmciBarrier id) (fun _ => 2) (fun _ => (7 : UInt8)) ∧
    Coherent (pairWindows.layout (parmciMsgBarrier true).fenced id) (fun _ => 1)
      (fun _ => (7 : UInt8)) := by
  refine ⟨fun h => ?_, ?_, ?_⟩
  · have hc := (barrier_coherent_iff pairWindows id (fun _ => 1) (fun _ => 7)).1.mp h
      ⟨0, _, 4096, List.mem_singleton_self _, by decide⟩
    revert hc
    decide
  · exact (barrier_coherent_iff pairWindows id (fun _ => 2) (fun _ => 7)).1.mpr
      fun _ => .inr (by decide)
  · exact (barrier_coherent_iff pairWindows id (fun _ => 1) (fun _ => 7)).2.1.mpr
      fun _ => .inr (by decide)

end Separate
end ArmciMpi
