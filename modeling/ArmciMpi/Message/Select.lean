import ArmciMpi.Lib.Combine
import ArmciMpi.Message.Machine
import ArmciMpi.Message.Types
import Mathlib.Data.Int.ConditionallyCompleteOrder
import Mathlib.Order.ConditionallyCompleteLattice.Basic

/-!
# Selection

`armci_msg_sel` reduces packets whose data starts with a key: the operators keep
the packet of the contributor with the lowest or the highest key. On integer keys
they are `pick` with a score, so that MPI may deliver any packet with a best key
(`combines_selOp_iff`). They are associative, but on a tie they do not commute
(`sel_op_laws`).

`armci_msg_sel_scope` prepares the caller's buffer for reading, stores the result in
the caller's buffer itself and finishes the prepared one, which holds the input
(`sel_delivers_iff`). The packets are three bytes longer than the caller's data, since
`sel_data_t` is padded; these bytes are never set, and with data shorter than a key the
operators compare them too.
-/

namespace ArmciMpi

open Lib Stateful Machine

-- ------------------------------
-- The operators
-- ------------------------------

/-- `sel_data_t` with as many bytes of data as are allocated for it. -/
structure Packet where
  contribute : Int
  type : MsgType
  data : List UInt8
  deriving DecidableEq

def selBetter (kind : MinMax) (type : MsgType) (x y : List UInt8) : Except String Bool :=
  match type with
  | .elem e => .ok (e.test kind x y)
  | .other code => .error ("Invalid data type (" ++ toString code ++ ")")

/-- The body of the two operators: what `data_inout` holds afterwards. -/
def selBody (kind : MinMax) (dataIn dataInout : Packet) : Except String Packet :=
  if dataIn.contribute ≠ 0 ∧ dataInout.contribute = 0 then .ok dataIn
  else if dataIn.contribute ≠ 0 ∧ dataInout.contribute ≠ 0 then
    match selBetter kind dataIn.type dataIn.data dataInout.data with
    | .ok true => .ok dataIn
    | .ok false => .ok dataInout
    | .error e => .error e
  else .ok dataInout

/-- `ARMCII_Msg_sel_min_op`. -/
def msgSelMinOp : Packet → Packet → Except String Packet := selBody .min

/-- `ARMCII_Msg_sel_max_op`. -/
def msgSelMaxOp : Packet → Packet → Except String Packet := selBody .max

/-- What `PARMCI_Init_thread_comm` registers, with `commute` set. -/
def MinMax.selOp : MinMax → Packet → Packet → Except String Packet
  | min => msgSelMinOp
  | max => msgSelMaxOp

/-- The score by which the operators choose; a packet that does not contribute has
none. -/
def Packet.score (kind : MinMax) (k : Nat) (p : Packet) : WithBot Int :=
  if p.contribute ≠ 0 then (kind.sign (signedAt k p.data) : Int) else ⊥

def Best (kind : MinMax) (k : Nat) (l : List Packet) (p : Packet) : Prop :=
  p.contribute ≠ 0 ∧ ∀ q ∈ l, q.contribute ≠ 0 → kind.le (signedAt k p.data) (signedAt k q.data)

section
variable {kind : MinMax} {e : ElemType} {k : Nat} {a b c p r : Packet} {l : List Packet}

theorem selBody_eq (kind : MinMax) (he : e.Signed) (ha : a.type = .elem e) (b : Packet) :
    selBody kind a b = .ok (pick (Packet.score kind e.size) a b) := by
  have hbetter : selBetter kind a.type a.data b.data =
      .ok (kind.test (signedAt e.size a.data) (signedAt e.size b.data)) := by
    rw [ha, ← e.test_eq he]
    rfl
  unfold selBody pick Packet.score
  rw [hbetter]
  by_cases hca : a.contribute = 0
  · simp [hca]
  · by_cases hcb : b.contribute = 0
    · simp [hca, hcb]
    · have htest := kind.test_iff (signedAt e.size a.data) (signedAt e.size b.data)
      cases hb : kind.test (signedAt e.size a.data) (signedAt e.size b.data) with
      | true => simp [hca, hcb, htest.mp hb]
      | false =>
        have hnot : ¬ kind.sign (signedAt e.size b.data) < kind.sign (signedAt e.size a.data) :=
          fun h => Bool.false_ne_true (hb.symm.trans (htest.mpr h))
        simp [hca, hcb, hnot]

theorem selOp_eq (kind : MinMax) (he : e.Signed) (ha : a.type = .elem e) (b : Packet) :
    kind.selOp a b = .ok (pick (Packet.score kind e.size) a b) := by
  cases kind
  · exact selBody_eq .min he ha b
  · exact selBody_eq .max he ha b

theorem selOp_type (he : e.Signed) (ha : a.type = .elem e) (hb : b.type = .elem e)
    (h : kind.selOp a b = .ok c) : c.type = .elem e := by
  rw [selOp_eq kind he ha] at h
  obtain rfl := Except.ok.inj h
  rcases pick_eq_or (Packet.score kind e.size) a b with heq | heq
  · rw [heq, ha]
  · rw [heq, hb]

theorem score_le_iff (hp : p.contribute ≠ 0) :
    a.score kind k ≤ p.score kind k ↔
      (a.contribute ≠ 0 → kind.le (signedAt k p.data) (signedAt k a.data)) := by
  by_cases ha : a.contribute = 0
  · simp [Packet.score, ha]
  · simp [Packet.score, ha, hp, kind.sign_le_iff]

theorem combines_selOp_iff (he : e.Signed) (hl : ∀ p ∈ l, p.type = .elem e)
    (hone : ∃ p ∈ l, p.contribute ≠ 0) :
    Combines kind.selOp l r ↔ r ∈ l ∧ Best kind e.size l r := by
  rw [combines_congr (S := fun p => p.type = .elem e) (fun ha hb h => selOp_type he ha hb h)
    (fun ha _ => selOp_eq kind he ha _) hl, combines_pick_iff]
  constructor
  · rintro ⟨hr, hbest⟩
    have hcr : r.contribute ≠ 0 := fun hzero => by
      obtain ⟨p, hp, hcp⟩ := hone
      have hle := hbest p hp
      simp [Packet.score, hzero, hcp] at hle
    exact ⟨hr, hcr, fun q hq => (score_le_iff hcr).mp (hbest q hq)⟩
  · rintro ⟨hr, hcr, hbest⟩
    exact ⟨hr, fun q hq => (score_le_iff hcr).mpr (hbest q hq)⟩

theorem exists_combines_selOp (kind : MinMax) (he : e.Signed) (hl : ∀ p ∈ l, p.type = .elem e)
    (hne : l ≠ []) : ∃ r, Combines kind.selOp l r := by
  obtain ⟨r, hr, -⟩ := Combines.exists_of_total (S := fun p => p.type = .elem e)
    (fun {a b} ha hb => ⟨_, selOp_eq kind he ha b, selOp_type he ha hb (selOp_eq kind he ha b)⟩)
    hl hne
  exact ⟨r, hr⟩

end

/-- The operators are associative. With a contributor they commute exactly if no two
different packets tie, and a reduction has one result exactly if the packets of all
contributors with a best key are the same. -/
theorem sel_op_laws (kind : MinMax) (e : ElemType) (he : e.Signed) :
    (∀ a b c : Packet, a.type = .elem e → b.type = .elem e → c.type = .elem e →
      (kind.selOp a b >>= fun ab => kind.selOp ab c) =
        (kind.selOp b c >>= fun bc => kind.selOp a bc)) ∧
    (∀ a b : Packet, a.type = .elem e → b.type = .elem e → a.contribute ≠ 0 ∨ b.contribute ≠ 0 →
      (kind.selOp a b = kind.selOp b a ↔ (a.contribute ≠ 0 → b.contribute ≠ 0 →
        signedAt e.size a.data = signedAt e.size b.data → a = b))) ∧
    ∀ l : List Packet, (∀ p ∈ l, p.type = .elem e) → (∃ p ∈ l, p.contribute ≠ 0) →
      (∃ r, Combines kind.selOp l r) ∧
      ((∀ r r', Combines kind.selOp l r → Combines kind.selOp l r' → r = r') ↔
        ∀ p ∈ l, ∀ q ∈ l, Best kind e.size l p → Best kind e.size l q → p = q) := by
  refine ⟨fun a b c ha hb hc => ?_, fun a b ha hb hone => ?_, fun l hl hone => ⟨?_, ?_⟩⟩
  · have hab := selOp_type he ha hb (selOp_eq kind he ha b)
    let score := Packet.score kind e.size
    calc (kind.selOp a b >>= fun ab => kind.selOp ab c)
        = .ok (pick score (pick score a b) c) := by
          rw [selOp_eq kind he ha]
          exact selOp_eq kind he hab c
      _ = .ok (pick score a (pick score b c)) := by rw [pick_assoc]
      _ = (kind.selOp b c >>= fun bc => kind.selOp a bc) := by
          rw [selOp_eq kind he hb]
          exact (selOp_eq kind he ha _).symm
  · rw [selOp_eq kind he ha, selOp_eq kind he hb, Except.ok.injEq, pick_comm_iff]
    by_cases hca : a.contribute = 0
    · have hcb : b.contribute ≠ 0 := hone.resolve_left (not_not.mpr hca)
      simp [Packet.score, hca, hcb]
    · by_cases hcb : b.contribute = 0
      · simp [Packet.score, hca, hcb]
      · have hinj : kind.sign (signedAt e.size a.data) = kind.sign (signedAt e.size b.data) ↔
            signedAt e.size a.data = signedAt e.size b.data := ⟨kind.sign_inj, congrArg kind.sign⟩
        simp [Packet.score, hca, hcb, hinj]
  · obtain ⟨p, hp, -⟩ := hone
    exact exists_combines_selOp kind he hl (List.ne_nil_of_mem hp)
  · simp only [combines_selOp_iff he hl hone]
    exact ⟨fun h p hp q hq hbp hbq => h p q ⟨hp, hbp⟩ ⟨hq, hbq⟩,
      fun h r r' hr hr' => h r hr.1 r' hr'.1 hr.2 hr'.2⟩

def tied (payload : UInt8) : Packet := ⟨1, .elem .int, [5, 0, 0, 0, payload]⟩

theorem sel_op_not_comm : msgSelMinOp (tied 1) (tied 2) = .ok (tied 2) ∧
    msgSelMinOp (tied 2) (tied 1) = .ok (tied 1) ∧ msgSelMaxOp (tied 1) (tied 2) = .ok (tied 2) ∧
    msgSelMaxOp (tied 2) (tied 1) = .ok (tied 1) ∧ tied 1 ≠ tied 2 := by
  decide

theorem sel_op_laws_int : ElemType.int.Signed ∧
    MinMax.min.selOp (tied 1) ⟨1, .elem .int, [3, 0, 0, 0, 2]⟩ =
      MinMax.min.selOp ⟨1, .elem .int, [3, 0, 0, 0, 2]⟩ (tied 1) :=
  ⟨⟨by decide, by decide⟩, ((sel_op_laws .min .int ⟨by decide, by decide⟩).2.1 (tied 1)
    ⟨1, .elem .int, [3, 0, 0, 0, 2]⟩ rfl rfl (.inl (by decide))).mpr fun _ _ hkey =>
      absurd hkey (by decide)⟩

-- ------------------------------
-- The call
-- ------------------------------

/-- `MPI_Allreduce` on packets, whose size is converted to `int`. -/
def selAllreduce (comm : Option Comm) (kind : MinMax) (n : Nat) (dataIn reply : Packet) :
    MsgM MinMax Packet Packet :=
  if intMax < (n : Int) + 11 then throw "MPI_ERR_COUNT" else allreduce comm kind dataIn reply

/-- The data of `data_in`, of which contributors set the first `n` bytes; `fresh` is what
it held before. -/
def selData (env : Env) (x : Int) (n : Nat) (contribute : Int) (fresh : List UInt8) :
    MsgM MinMax Packet (List UInt8) := do
  if contribute ≠ 0 then
    let bytes ← load env x n
    return bytes ++ fresh.drop n
  else return fresh

def selReduce (op : String) (comm : Option Comm) (n : Nat) (dataIn reply : Packet) :
    MsgM MinMax Packet Packet :=
  if startsAs op "min" then selAllreduce comm .min n dataIn reply
  else if startsAs op "max" then selAllreduce comm .max n dataIn reply
  else throw ("Invalid operation (" ++ op ++ ")")

/-- `armci_msg_sel_scope`; `reply` is what the reduction delivers. -/
def armciMsgSelScope (env : Env) (scope : Scope) (x : Int) (n : Nat) (op : String) (type : MsgType)
    (contribute : Int) (fresh : List UInt8) (reply : Packet) : MsgM MinMax Packet Unit := do
  let selComm := scope.comm (some env.world.comm) env.me
  let xBuf ← script env (bufPrepareReadVec env [x] n)
  let data ← selData env x n contribute fresh
  let dataOut ← selReduce op selComm n ⟨contribute, type, data⟩ reply
  store env x (dataOut.data.take n)
  script env (bufFinishWriteVec env [x] xBuf n)

def MinMax.name : MinMax → String
  | min => "min"
  | max => "max"

/-- One process of a selection: its buffer, whether it contributes, what its new packet
holds and what it has done before. -/
structure SelProc where
  env : Env
  arena : Set Int
  x : Int
  contribute : Int
  fresh : List UInt8
  acts : List Act

namespace SelProc

def packet (P : SelProc) (type : MsgType) (n : Nat) (m : Mem) : Packet :=
  ⟨P.contribute, type,
    if P.contribute ≠ 0 then bytesAt m (P.env.me, P.x) n ++ P.fresh.drop n else P.fresh⟩

structure Ok (world : Comm) (p n : Nat) (P : SelProc) : Prop where
  me : P.env.me = p
  world : P.env.world.comm = world
  allocs : P.env.Allocs P.arena
  start : P.x ∉ P.arena
  buffer : Disjoint (block (P.env.me, P.x) n) (scratch P.env.me P.arena)
  /-- The data starts at byte 8 of the `n + 11` that are allocated. -/
  fresh : P.fresh.length = n + 3

/-- The call returns, the process has passed its packet, and the buffer holds the data of
the reply. -/
def Delivers (world : Comm) (n : Nat) (kind : MinMax) (type : MsgType) (m : Mem) (reply : Packet)
    (P : SelProc) : Prop :=
  ∃ σ, armciMsgSelScope P.env .all P.x n kind.name type P.contribute P.fresh reply
      ⟨P.acts, m, []⟩ = .ok ((), σ) ∧
    σ.calls = [⟨world, kind, P.packet type n m⟩] ∧
    bytesAt σ.mem (P.env.me, P.x) n = reply.data.take n

variable {P : SelProc} {world : Comm} {p n : Nat} {kind : MinMax} {type : MsgType} {m : Mem}
  {reply : Packet}

theorem packet_length (hP : P.Ok world p n) (type : MsgType) (m : Mem) :
    (P.packet type n m).data.length = n + 3 := by
  unfold packet
  split
  · simp [hP.fresh]
  · exact hP.fresh

theorem packet_take (hcon : P.contribute ≠ 0) (type : MsgType) (m : Mem) :
    (P.packet type n m).data.take n = bytesAt m (P.env.me, P.x) n := by
  rw [packet, if_pos hcon]
  exact List.take_left' (bytesAt_length _ _ _)

/-- The key of a contributor is the one at the start of its buffer, if the caller's data is
not shorter than a key. -/
theorem packet_key (hcon : P.contribute ≠ 0) {k : Nat} (hk : k ≤ n) (type : MsgType) (m : Mem) :
    signedAt k (P.packet type n m).data = signedAt k (bytesAt m (P.env.me, P.x) n) := by
  rw [← packet_take hcon type m, signedAt, signedAt, List.take_take, Nat.min_eq_left hk]

theorem run_data {σ : Machine MinMax Packet}
    (huser : bytesAt σ.mem (P.env.me, P.x) n = bytesAt m (P.env.me, P.x) n) (type : MsgType) :
    selData P.env P.x n P.contribute P.fresh σ = .ok ((P.packet type n m).data, σ) := by
  unfold packet selData
  split
  · rw [bind_ok (show load P.env P.x n σ = .ok (_, σ) from rfl), huser]
    rfl
  · rfl

theorem run_reduce (hP : P.Ok world p n) (hn : (n : Int) + 11 ≤ intMax) (kind : MinMax)
    (dataIn reply : Packet) (σ : Machine MinMax Packet) :
    selReduce kind.name (Scope.all.comm (some P.env.world.comm) P.env.me) n dataIn reply σ =
      .ok (reply, { σ with calls := σ.calls ++ [⟨world, kind, dataIn⟩] }) := by
  have hone : ∀ kind', selAllreduce (Scope.all.comm (some P.env.world.comm) P.env.me) kind' n
      dataIn reply σ = .ok (reply, { σ with calls := σ.calls ++ [⟨world, kind', dataIn⟩] }) := by
    intro kind'
    rw [selAllreduce, if_neg (not_lt.mpr hn), ← hP.world]
    rfl
  cases kind with
  | min => exact hone .min
  | max => exact hone .max

/-- The result is stored in the caller's buffer, but a private buffer, which is copied
back over it, still holds the input. -/
theorem run_sel (hP : P.Ok world p n) (hpos : 0 < n) (kind : MinMax) (type : MsgType) (m : Mem)
    (hn : (n : Int) + 11 ≤ intMax) (hreply : n ≤ reply.data.length) :
    ∃ σ, armciMsgSelScope P.env .all P.x n kind.name type P.contribute P.fresh reply
        ⟨P.acts, m, []⟩ = .ok ((), σ) ∧
      σ.calls = [⟨world, kind, P.packet type n m⟩] ∧
      bytesAt σ.mem (P.env.me, P.x) n =
        if Guarded P.env P.x then bytesAt m (P.env.me, P.x) n else reply.data.take n := by
  obtain ⟨b, σ₁, hprep, hready⟩ := prepare_run hP.allocs (hP.allocs.canAlloc n hpos) hP.start true
    (⟨P.acts, m, []⟩ : Machine MinMax Packet)
  rw [if_pos rfl] at hprep
  let σ₂ : Machine MinMax Packet := { σ₁ with
    calls := σ₁.calls ++ [⟨world, kind, P.packet type n m⟩]
    mem := writeBytes σ₁.mem (P.env.me, P.x) (reply.data.take n) }
  have hbody : armciMsgSelScope P.env .all P.x n kind.name type P.contribute P.fresh reply
      ⟨P.acts, m, []⟩ = script P.env (bufFinishWriteVec P.env [P.x] [b] n) σ₂ := by
    unfold armciMsgSelScope
    rw [bind_ok hprep, bind_ok (run_data (hready.user hP.buffer) type)]
    exact (bind_ok (run_reduce hP hn kind (P.packet type n m) reply σ₁)).trans rfl
  have htake : (reply.data.take n).length = n := List.length_take_of_le hreply
  have hcalls : σ₂.calls = [⟨world, kind, P.packet type n m⟩] := by
    show σ₁.calls ++ _ = _
    rw [hready.calls]
    rfl
  rw [hbody]
  cases hready with
  | kept hg =>
    refine ⟨σ₂, finish_kept _ _ _ _, hcalls, ?_⟩
    rw [if_neg hg]
    exact writeBytes_bytes _ _ htake
  | copied hg hne hin hcopy hkeep hframe _ =>
    obtain ⟨σ', hrun, hbytes, -, hcalls'⟩ := finish_run hg hne n σ₂
    refine ⟨σ', hrun, hcalls'.trans hcalls, ?_⟩
    -- storing the result did not touch the private buffer
    have hkept : bytesAt σ₂.mem (P.env.me, b) n = bytesAt σ₁.mem (P.env.me, b) n := by
      refine bytesAt_congr fun l hl => writeBytes_frame _ _ _ fun hlx => ?_
      rw [htake] at hlx
      exact Set.disjoint_left.mp hP.buffer hlx (hin hl)
    rw [if_pos hg, hbytes, hkept, hcopy rfl]

theorem delivers_iff (hP : P.Ok world p n) (hpos : 0 < n) (hreply : n ≤ reply.data.length) :
    P.Delivers world n kind type m reply ↔ (n : Int) + 11 ≤ intMax ∧
      (¬ Guarded P.env P.x ∨ bytesAt m (P.env.me, P.x) n = reply.data.take n) := by
  by_cases hn : (n : Int) + 11 ≤ intMax
  · obtain ⟨σ, hrun, hcalls, hbytes⟩ := run_sel hP hpos kind type m hn hreply
    constructor
    · rintro ⟨σ', hrun', -, hbytes'⟩
      obtain rfl : σ = σ' := by rw [hrun] at hrun'; cases hrun'; rfl
      rw [hbytes] at hbytes'
      refine ⟨hn, ?_⟩
      by_cases hg : Guarded P.env P.x
      · rw [if_pos hg] at hbytes'
        exact .inr hbytes'
      · exact .inl hg
    · rintro ⟨-, hcond⟩
      refine ⟨σ, hrun, hcalls, ?_⟩
      rw [hbytes]
      split
      · rename_i hg
        exact hcond.resolve_left (not_not.mpr hg)
      · rfl
  · refine iff_of_false ?_ fun h => hn h.1
    rintro ⟨σ, hrun, -⟩
    obtain ⟨xBuf, σ₁, -, hrun⟩ := bind_eq_ok hrun
    obtain ⟨data, σ₂, -, hrun⟩ := bind_eq_ok hrun
    obtain ⟨dataOut, σ₃, hcall, -⟩ := bind_eq_ok hrun
    have hcount : ∀ {comm : Option Comm} {kind : MinMax} {dataIn : Packet},
        selAllreduce comm kind n dataIn reply σ₂ = .error "MPI_ERR_COUNT" := by
      intro comm kind dataIn
      rw [selAllreduce, if_pos (not_le.mp hn)]
      rfl
    cases kind with
    | min => exact absurd (hcount.symm.trans hcall) (by simp)
    | max => exact absurd (hcount.symm.trans hcall) (by simp)

end SelProc

/-- A contributor with a key that none of the contributors' is better than. -/
def BestProc (world : Comm) (procs : Nat → SelProc) (kind : MinMax) (k n : Nat) (m : Mem) (q : Nat) :
    Prop :=
  q ∈ world.ranks ∧ (procs q).contribute ≠ 0 ∧
    ∀ q' ∈ world.ranks, (procs q').contribute ≠ 0 →
      kind.le (signedAt k (bytesAt m (q, (procs q).x) n)) (signedAt k (bytesAt m (q', (procs q').x) n))

section
variable {world : Comm} {procs : Nat → SelProc} {n : Nat} {kind : MinMax} {e : ElemType} {m : Mem}

theorem combines_packets_iff (hprocs : ∀ p ∈ world.ranks, (procs p).Ok world p n) (he : e.Signed)
    (hn : e.size ≤ n) (hone : ∃ p ∈ world.ranks, (procs p).contribute ≠ 0) {r : Packet} :
    Combines kind.selOp (world.ranks.map fun q => (procs q).packet (.elem e) n m) r ↔
      ∃ q, BestProc world procs kind e.size n m q ∧ (procs q).packet (.elem e) n m = r := by
  have hkey : ∀ q ∈ world.ranks, (procs q).contribute ≠ 0 →
      signedAt e.size ((procs q).packet (.elem e) n m).data =
        signedAt e.size (bytesAt m (q, (procs q).x) n) := by
    intro q hq hcon
    rw [SelProc.packet_key hcon hn, (hprocs q hq).me]
  rw [combines_selOp_iff he (by simp [SelProc.packet]) (by simpa [SelProc.packet] using hone)]
  constructor
  · rintro ⟨hmem, hcon, hbest⟩
    obtain ⟨q, hq, rfl⟩ := List.mem_map.mp hmem
    refine ⟨q, ⟨hq, hcon, fun q' hq' hcon' => ?_⟩, rfl⟩
    rw [← hkey q hq hcon, ← hkey q' hq' hcon']
    exact hbest _ (List.mem_map_of_mem hq') hcon'
  · rintro ⟨q, ⟨hq, hcon, hbest⟩, rfl⟩
    refine ⟨List.mem_map_of_mem hq, hcon, List.forall_mem_map.mpr fun q' hq' hcon' => ?_⟩
    rw [hkey q hq hcon, hkey q' hq' hcon']
    exact hbest q' hq' hcon'

end

/-- All processes of the world take part, at least one contributes, and the data is not
shorter than a key. MPI may deliver the data of exactly the contributors with a best key. A
process has what is delivered in its buffer, whichever it is, exactly if the buffer is not
replaced by a private one or held the data of all these contributors before, and a packet
fits an `int`. -/
theorem sel_delivers_iff (world : Comm) (procs : Nat → SelProc) (n : Nat)
    (hprocs : ∀ p ∈ world.ranks, (procs p).Ok world p n) (kind : MinMax) (e : ElemType)
    (he : e.Signed) (hn : e.size ≤ n) (m : Mem) (hone : ∃ p ∈ world.ranks, (procs p).contribute ≠ 0) :
    (∀ r, Combines kind.selOp (world.ranks.map fun q => (procs q).packet (.elem e) n m) r ↔
      ∃ q, BestProc world procs kind e.size n m q ∧ (procs q).packet (.elem e) n m = r) ∧
    (∀ q, BestProc world procs kind e.size n m q →
      ((procs q).packet (.elem e) n m).data.take n = bytesAt m (q, (procs q).x) n) ∧
    ∀ p ∈ world.ranks,
      (∀ r, Combines kind.selOp (world.ranks.map fun q => (procs q).packet (.elem e) n m) r →
        (procs p).Delivers world n kind (.elem e) m r) ↔
      (n : Int) + 11 ≤ intMax ∧ (¬ Guarded (procs p).env (procs p).x ∨
        ∀ q, BestProc world procs kind e.size n m q →
          bytesAt m (q, (procs q).x) n = bytesAt m (p, (procs p).x) n) := by
  have hcomb : ∀ r,
      Combines kind.selOp (world.ranks.map fun q => (procs q).packet (.elem e) n m) r ↔
        ∃ q, BestProc world procs kind e.size n m q ∧ (procs q).packet (.elem e) n m = r :=
    fun _ => combines_packets_iff hprocs he hn hone
  have htake : ∀ q, BestProc world procs kind e.size n m q →
      ((procs q).packet (.elem e) n m).data.take n = bytesAt m (q, (procs q).x) n := by
    rintro q ⟨hq, hcon, -⟩
    rw [SelProc.packet_take hcon, (hprocs q hq).me]
  refine ⟨hcomb, htake, fun p hp => ?_⟩
  -- what a process gets is the data of a best contributor
  have hdel : ∀ q, BestProc world procs kind e.size n m q →
      ((procs p).Delivers world n kind (.elem e) m ((procs q).packet (.elem e) n m) ↔
        (n : Int) + 11 ≤ intMax ∧ (¬ Guarded (procs p).env (procs p).x ∨
          bytesAt m (q, (procs q).x) n = bytesAt m (p, (procs p).x) n)) := by
    intro q hq
    have hlen := SelProc.packet_length (hprocs q hq.1) (.elem e) m
    rw [SelProc.delivers_iff (hprocs p hp) (e.size_pos.trans_le hn) (by omega), htake q hq,
      (hprocs p hp).me, eq_comm]
  constructor
  · intro hall
    have hbest := fun q hq => (hdel q hq).mp (hall _ ((hcomb _).mpr ⟨q, hq, rfl⟩))
    obtain ⟨r, hr⟩ := exists_combines_selOp kind he
      (l := world.ranks.map fun q => (procs q).packet (.elem e) n m) (by simp [SelProc.packet])
      (by simpa using List.ne_nil_of_mem hp)
    obtain ⟨q, hq, -⟩ := (hcomb r).mp hr
    refine ⟨(hbest q hq).1, or_iff_not_imp_left.mpr fun hg q' hq' => ?_⟩
    exact (hbest q' hq').2.resolve_left hg
  · rintro ⟨hfits, hcond⟩ r hr
    obtain ⟨q, hq, rfl⟩ := (hcomb r).mp hr
    exact (hdel q hq).mpr ⟨hfits, hcond.imp_right fun hsame => hsame q hq⟩

def selPair (cfg : GlobalState) (p : Nat) : SelProc where
  env := pairEnv cfg (if p = 0 then ⟨0, Nat.two_pos⟩ else ⟨1, Nat.one_lt_two⟩) 0
  arena := highArena
  x := if p = 0 then 4096 else 8192
  contribute := 1
  fresh := [0, 0, 0, 0, 7, 7, 7]
  acts := []

def selMem : Mem := fun l => if l = (0, 4096) then 5 else if l = (1, 8192) then 3 else 0

theorem selPair_ok (cfg : GlobalState) : ∀ p ∈ [0, 1], (selPair cfg p).Ok pairWorld.comm p 4 := by
  intro p hp
  have harena : ∀ q ∈ [0, 1], (selPair cfg q).x + 4 ≤ 2 ^ 20 := by
    intro q hq
    rcases List.mem_pair.mp hq with rfl | rfl
    · exact show (4096 : Int) + 4 ≤ 2 ^ 20 by decide
    · exact show (8192 : Int) + 4 ≤ 2 ^ 20 by decide
  have hx := harena p hp
  refine ⟨?_, rfl, pairEnv_allocs _ _ _, fun h : (2 ^ 20 : Int) ≤ _ => by omega, ?_, rfl⟩
  · rcases List.mem_pair.mp hp with rfl | rfl <;> rfl
  · refine Set.disjoint_left.mpr fun l hl hs => ?_
    have hlow : l.2 < (selPair cfg p).x + 4 := hl.2.2
    have hhigh : (2 ^ 20 : Int) ≤ l.2 := hs.2
    omega

/-- Rank 0's buffer is shared: it gets its own key back. -/
theorem sel_not_delivered :
    Combines MinMax.min.selOp ([0, 1].map fun q => (selPair copyState q).packet (.elem .int) 4 selMem)
      ⟨1, .elem .int, [3, 0, 0, 0, 7, 7, 7]⟩ ∧
    ∃ σ, armciMsgSelScope (selPair copyState 0).env .all 4096 4 "min" (.elem .int) 1
        [0, 0, 0, 0, 7, 7, 7] ⟨1, .elem .int, [3, 0, 0, 0, 7, 7, 7]⟩ ⟨[], selMem, []⟩ = .ok ((), σ) ∧
      bytesAt σ.mem (0, 4096) 4 = [5, 0, 0, 0] :=
  ⟨.join (.one _) (.one _) (by decide), _, rfl, by decide⟩

theorem sel_delivers_iff_noguard :
    (selPair defaultState 0).Delivers pairWorld.comm 4 .min (.elem .int) selMem
      ⟨1, .elem .int, [3, 0, 0, 0, 7, 7, 7]⟩ := by
  refine ((sel_delivers_iff pairWorld.comm (selPair defaultState) 4 (selPair_ok _) .min .int
    ⟨by decide, by decide⟩ (by decide) selMem ⟨0, by decide, by decide⟩).2.2 0 (by decide)).mpr
    ⟨by decide, .inl fun hg => hg.1 rfl⟩ _ ?_
  exact .join (.one _) (.one _) (by decide)

end ArmciMpi
