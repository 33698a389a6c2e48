import ArmciMpi.Message.Machine

/-!
# Receiving

A message may be shorter than the buffer. `armci_msg_rcv` and `armci_msg_rcvany`
receive it into the prepared buffer and finish all of the caller's. A private
buffer was not filled before, so that what it held comes along behind the message
(`rcv_frame_iff`).
-/

namespace ArmciMpi

open Lib Stateful Machine

variable {O V : Type}

/-- A message that `MPI_Recv` matches. -/
structure Message where
  source : Nat
  data : List UInt8

/-- `MPI_Recv` of at most `n` bytes. -/
def mpiRecv (env : Env) (buf : Int) (n : Nat) (msg : Message) : MsgM O V Unit :=
  if n < msg.data.length then throw "MPI_ERR_TRUNCATE" else store env buf msg.data

def receive (env : Env) (bufOut : Int) (nbytesBuf : Nat) (msg : Message) : MsgM O V Unit := do
  let buf ← script env (bufPrepareWriteVec env [bufOut] nbytesBuf)
  mpiRecv env (buf.headD 0) nbytesBuf msg
  script env (bufFinishWriteVec env [bufOut] buf nbytesBuf)

/-- `armci_msg_rcv`, which stores the length of the message. -/
def armciMsgRcv (env : Env) (bufOut : Int) (nbytesBuf : Nat) (msg : Message) : MsgM O V Nat := do
  receive env bufOut nbytesBuf msg
  return msg.data.length

/-- `armci_msg_rcvany`, which returns the source as well. -/
def armciMsgRcvany (env : Env) (bufOut : Int) (nbytesBuf : Nat) (msg : Message) :
    MsgM O V (Nat × Nat) := do
  receive env bufOut nbytesBuf msg
  return (msg.source, msg.data.length)

/-- The message is at the start of the buffer and the rest is as before. -/
structure Received (me : Nat) (buf : Int) (n : Nat) (msg : Message) (m m' : Mem) : Prop where
  data : bytesAt m' (me, buf) msg.data.length = msg.data
  rest : ∀ i < n, msg.data.length ≤ i → m' (me, buf + (i : Nat)) = m (me, buf + (i : Nat))

section
variable {env : Env} {arena : Set Int} {buf : Int} {n : Nat} {msg : Message}

/-- What receiving does to the buffer: behind the message is what a private buffer held. -/
theorem receive_run (ha : env.Allocs arena) (hcan : env.CanAlloc n) (hbuf : buf ∉ arena)
    (hlen : msg.data.length ≤ n) (σ : Machine O V) : ∃ b σ', receive env buf n msg σ = .ok ((), σ') ∧
      (Guarded env buf → block (env.me, b) n ⊆ scratch env.me arena) ∧
      ∀ i < n, σ'.mem (env.me, buf + (i : Nat)) =
        if i < msg.data.length then msg.data.getD i 0
        else if Guarded env buf then σ.mem (env.me, b + (i : Nat))
        else σ.mem (env.me, buf + (i : Nat)) := by
  obtain ⟨b, σ₁, hprep, hready⟩ := prepare_run ha hcan hbuf false σ
  rw [if_neg Bool.false_ne_true] at hprep
  have hmem : ({ σ₁ with mem := writeBytes σ₁.mem (env.me, b) msg.data } : Machine O V).mem =
      writeBytes σ₁.mem (env.me, b) msg.data := rfl
  obtain ⟨σ', hfinish, -, -, hbytes⟩ := store_finish hready hlen hmem
  have hrecv : mpiRecv env ([b].headD 0) n msg σ₁ =
      .ok ((), { σ₁ with mem := writeBytes σ₁.mem (env.me, b) msg.data }) := by
    rw [mpiRecv, if_neg (Nat.not_lt.mpr hlen)]
    rfl
  refine ⟨b, σ', ?_, fun hg => ?_, fun i hi => by simpa using hbytes i hi⟩
  · unfold receive
    rw [bind_ok hprep, bind_ok hrecv, hfinish]
  · cases hready with
    | kept hno => exact absurd hg hno
    | copied _ _ hin _ _ _ _ => exact hin

end

/-- Both functions return and do the same. For every memory the message is in the buffer
and the rest unchanged exactly if the buffer is not replaced by a private one or the
message fills it. -/
theorem rcv_frame_iff (env : Env) (arena : Set Int) (ha : env.Allocs arena) (buf : Int)
    (hbuf : buf ∉ arena) (n : Nat) (hcan : n = 0 → env.CanAlloc 0)
    (hdisj : Disjoint (block (env.me, buf) n) (scratch env.me arena))
    (msg : Message) (hlen : msg.data.length ≤ n) (acts : List Act) :
    ∃ final : Mem → Machine Unit Unit,
      (∀ m, armciMsgRcv env buf n msg ⟨acts, m, []⟩ = .ok (msg.data.length, final m) ∧
        armciMsgRcvany env buf n msg ⟨acts, m, []⟩ =
          .ok ((msg.source, msg.data.length), final m)) ∧
      ((∀ m, Received env.me buf n msg m (final m).mem) ↔
        ¬ Guarded env buf ∨ msg.data.length = n) := by
  have hrun := fun m : Mem =>
    receive_run ha (ha.canAlloc_of hcan) hbuf hlen (⟨acts, m, []⟩ : Machine Unit Unit)
  choose b final hreceive hin hbytes using hrun
  refine ⟨final, fun m => ⟨?_, ?_⟩, fun hall => ?_, fun hcond m => ⟨?_, fun i hi hge => ?_⟩⟩
  · unfold armciMsgRcv
    rw [bind_ok (hreceive m)]
    rfl
  · unfold armciMsgRcvany
    rw [bind_ok (hreceive m)]
    rfl
  · -- otherwise a memory that tells scratch memory from the rest shows the difference
    by_contra hnot
    rw [not_or, not_not] at hnot
    obtain ⟨hg, hne⟩ := hnot
    classical
    let m : Mem := fun l => if l ∈ scratch env.me arena then 1 else 0
    have hlt : msg.data.length < n := by omega
    have hrest := (hall m).rest _ hlt (le_refl _)
    rw [hbytes m _ hlt, if_neg (lt_irrefl _), if_pos hg] at hrest
    have hscratch : m (env.me, b m + (msg.data.length : Int)) = 1 :=
      if_pos (hin m hg (mem_block_iff.mpr ⟨_, hlt, rfl⟩))
    have huser : m (env.me, buf + (msg.data.length : Int)) = 0 :=
      if_neg (Set.disjoint_left.mp hdisj (mem_block_iff.mpr ⟨_, hlt, rfl⟩))
    exact absurd (hscratch.symm.trans (hrest.trans huser)) (by decide)
  · refine List.ext_getElem (by simp) fun i hi hi' => ?_
    simp only [bytesAt, List.getElem_map, List.getElem_range]
    rw [hbytes m i (by omega), if_pos hi', List.getD_eq_getElem _ _ hi']
  · rw [hbytes m i hi, if_neg (Nat.not_lt.mpr hge)]
    rcases hcond with hg | hfull
    · rw [if_neg hg]
    · omega

def dirtyScratch : Mem := fun l => if 2 ^ 20 ≤ l.2 then 9 else 0

/-- A message of one byte into a shared buffer of two. -/
theorem rcv_overwrites_rest : ∃ σ : Machine Unit Unit,
    armciMsgRcv (pairEnv copyState ⟨0, Nat.two_pos⟩ 0) 4096 2 ⟨1, [7]⟩ ⟨[], dirtyScratch, []⟩ =
      .ok (1, σ) ∧
    bytesAt dirtyScratch (0, 4096) 2 = [0, 0] ∧ bytesAt σ.mem (0, 4096) 2 = [7, 9] :=
  ⟨_, rfl, by decide, by decide⟩

theorem rcv_frame_iff_noguard : ∃ final : Mem → Machine Unit Unit,
    ∀ m, armciMsgRcv (pairEnv defaultState ⟨0, Nat.two_pos⟩ 0) 4096 2 ⟨1, [7]⟩ ⟨[], m, []⟩ =
        .ok (1, final m) ∧ Received 0 4096 2 ⟨1, [7]⟩ m (final m).mem := by
  obtain ⟨final, hrun, hiff⟩ := rcv_frame_iff (pairEnv defaultState ⟨0, Nat.two_pos⟩ 0) highArena
    (pairEnv_allocs _ _ _) 4096 (show ¬ (2 ^ 20 : Int) ≤ 4096 by decide) 2 (fun h => by cases h)
    (Set.disjoint_left.mpr fun l hl hs => absurd (hs.2.trans_lt hl.2.2) (by decide)) ⟨1, [7]⟩
    (by decide) []
  exact ⟨final, fun m => ⟨(hrun m).1, hiff.mpr (.inl fun hg => hg.1 rfl) m⟩⟩

end ArmciMpi
