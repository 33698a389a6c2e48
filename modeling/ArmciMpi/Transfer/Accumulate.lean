import ArmciMpi.Transfer.Calls

/-!
# Concurrent accumulates

Processes add integers to the elements of one slice, each with a sequence of
`PARMCI_Acc`, `PARMCI_AccS` and `PARMCI_AccV` calls of its own. What a call asks
for is a list of addends, one for each source element and the target element it
goes to. Sums that wrap around do not depend on the order, so that moves of
different calls and processes that meet at an element are independent.
`accumulates_add` says that when all is complete each target element has received
every addend that goes to it exactly once, in every run and in every
configuration.
-/

namespace ArmciMpi

open Lib Script

-- ------------------------------
-- Integers in memory
-- ------------------------------

/-- `ARMCI_ACC_INT` and `ARMCI_ACC_LNG`. -/
inductive IntType
  | int
  | lng
  deriving DecidableEq

namespace IntType

def base : IntType → BaseType
  | int => .int
  | lng => .long

def scale (type : IntType) (factor : Int) : Scale :=
  match type with
  | int => .int factor
  | lng => .lng factor

def size (type : IntType) : Nat := type.base.size

def modulus : IntType → Int
  | int => 2 ^ 32
  | lng => 2 ^ 64

def valueAt (type : IntType) (m : Mem) (l : Loc) : Int := leVal (bytesAt m l type.size)

variable {type : IntType}

theorem size_pos (type : IntType) : 0 < type.size := type.base.size_pos

theorem whole (type : IntType) : type.base.Whole := by cases type <;> trivial

theorem base_scale (type : IntType) (factor : Int) : (type.scale factor).base = type.base := by
  cases type <;> rfl

theorem unit_scale (type : IntType) (factor : Int) : (type.scale factor).unit = type.size := by
  cases type <;> rfl

theorem modulus_eq (type : IntType) : type.modulus = ((256 ^ type.size : Nat) : Int) := by
  cases type <;> rfl

theorem valueAt_mod (m : Mem) (l : Loc) : type.valueAt m l % type.modulus = type.valueAt m l := by
  have hlt := leVal_lt (bytesAt_length m l type.size)
  rw [valueAt, modulus_eq, ← Int.natCast_mod, Nat.mod_eq_of_lt hlt]

theorem valueAt_congr {m m' : Mem} {l : Loc} (h : Set.EqOn m m' (block l type.size)) :
    type.valueAt m l = type.valueAt m' l := by
  rw [valueAt, valueAt, bytesAt_congr h]

theorem leVal_sum (type : IntType) (x y : List UInt8) :
    (leVal (type.base.sum x y) : Int) = (leVal x + leVal y) % type.modulus := by
  have hsum : type.base.sum x y = leBytes type.size (leVal x + leVal y) := by cases type <;> rfl
  rw [hsum, leVal_leBytes, modulus_eq, Int.natCast_mod, Int.natCast_add]

theorem leVal_mul (type : IntType) (factor : Int) (x : List UInt8) :
    (leVal ((type.scale factor).mul x) : Int) = factor * leVal x % type.modulus := by
  have hmul : (type.scale factor).mul x =
      leBytes type.size (factor * leVal x % type.modulus).toNat := by cases type <;> rfl
  have hpos : 0 < type.modulus := by cases type <;> decide
  have hnonneg := Int.emod_nonneg (factor * leVal x) hpos.ne'
  have hlt := Int.emod_lt_of_pos (factor * leVal x) hpos
  rw [hmul, leVal_leBytes, Int.natCast_mod, Int.toNat_of_nonneg hnonneg, ← modulus_eq,
    Int.emod_eq_of_lt hnonneg hlt]

theorem leVal_applied (type : IntType) (factor : Int) (x : List UInt8) :
    (leVal ((type.scale factor).applied x) : Int) % type.modulus =
      factor * leVal x % type.modulus := by
  have hscaled : (type.scale factor).accIsScaled = (factor != 1) := by cases type <;> rfl
  unfold Scale.applied
  rw [hscaled]
  by_cases hone : factor = 1
  · simp [hone]
  · rw [if_pos (by simpa using hone), leVal_mul, Int.emod_emod_of_dvd _ (Int.dvd_refl _)]

theorem applied_length (type : IntType) (factor : Int) {x : List UInt8} (hx : x.length = type.size) :
    ((type.scale factor).applied x).length = type.size := by
  unfold Scale.applied
  split
  · rw [Scale.mul_length, unit_scale]
  · exact hx

end IntType

-- ------------------------------
-- Addends
-- ------------------------------

/-- A source element with its scale, and the element it is added to. -/
structure Addend where
  type : IntType
  factor : Int
  source : Loc
  target : Loc

namespace Addend

def value (m : Mem) (a : Addend) : Int := a.factor * a.type.valueAt m a.source

def reads (a : Addend) : Set Loc := block a.source a.type.size

def writes (a : Addend) : Set Loc := block a.target a.type.size

def move (a : Addend) : Xfer Loc UInt8 :=
  ArmciMpi.move (fun x d => a.type.base.sum ((a.type.scale a.factor).applied x) d) a.type.size
    a.source a.target

theorem value_congr {a : Addend} {m m' : Mem} (h : Set.EqOn m m' a.reads) : a.value m = a.value m' := by
  rw [value, value, IntType.valueAt_congr h]

theorem move_target (a : Addend) (m : Mem) :
    a.type.valueAt (a.move.apply m) a.target =
      (a.type.valueAt m a.target + a.value m) % a.type.modulus := by
  have hkeeps : KeepsLength a.type.size
      fun x d => a.type.base.sum ((a.type.scale a.factor).applied x) d :=
    fun x d hx hd => a.type.base.keepsLength_sum _ _ (a.type.applied_length a.factor hx) hd
  have hbytes := move_bytes hkeeps m m a.source a.target
  rw [IntType.valueAt, Xfer.apply, move, hbytes, IntType.leVal_sum, Int.add_comm,
    Int.add_emod, IntType.leVal_applied, ← Int.add_emod]
  rfl

structure Hits (a : Addend) (type : IntType) (l : Loc) : Prop where
  target : a.target = l
  type : a.type = type

theorem applyAll_move {as : List Addend} {type : IntType} {l : Loc}
    (hmeet : ∀ a ∈ as, a.Hits type l ∨ Disjoint a.writes (block l type.size))
    (hreads : ∀ a ∈ as, ∀ b ∈ as, Disjoint a.writes b.reads) (m : Mem) :
    type.valueAt (Xfer.applyAll (as.map move) m) l =
      (type.valueAt m l + ((as.filter (·.target = l)).map (value m)).sum) % type.modulus := by
  induction as generalizing m with
  | nil => simp [IntType.valueAt_mod]
  | cons a as ih =>
    obtain ⟨hfirst, hrest⟩ := List.forall_mem_cons.mp hmeet
    have hkeep : ∀ {s : Set Loc}, Disjoint a.writes s → Set.EqOn (a.move.apply m) m s :=
      fun hs => a.move.run_eqOn hs m m
    have hsame : (as.filter (·.target = l)).map (value (a.move.apply m)) =
        (as.filter (·.target = l)).map (value m) :=
      List.map_congr_left fun b hb => value_congr (hkeep
        (hreads a List.mem_cons_self b (List.mem_cons_of_mem a (List.mem_filter.mp hb).1)))
    rw [List.map_cons, Xfer.applyAll_cons, ih hrest (fun b hb c hc =>
      hreads b (List.mem_cons_of_mem a hb) c (List.mem_cons_of_mem a hc)), hsame]
    rcases hfirst with ⟨rfl, rfl⟩ | hdisj
    · rw [move_target, Int.emod_add_emod, List.filter_cons_of_pos (by simp), List.map_cons,
        List.sum_cons, Int.add_assoc]
    · have hne : a.target ≠ l := by
        rintro rfl
        have hmem : ∀ {k : Nat}, 0 < k → a.target ∈ block a.target k := fun hk =>
          ⟨rfl, le_refl _, by omega⟩
        exact hdisj.notMem_of_mem_left (hmem a.type.size_pos) (hmem type.size_pos)
      rw [IntType.valueAt_congr (hkeep hdisj), List.filter_cons_of_neg (by simpa using hne)]

end Addend

-- ------------------------------
-- Calls
-- ------------------------------

/-- The arguments of `PARMCI_Acc`, `PARMCI_AccS` and `PARMCI_AccV`. -/
inductive AccShape
  | single (src dst : Int) (bytes : Nat)
  | strided (src : Int) (srcStride : Nat → Int) (dst : Int) (dstStride : Nat → Int)
      (count : Nat → Nat) (levels : Nat)
  | vector (iov : List Giov)

structure AccCall where
  type : IntType
  factor : Int
  shape : AccShape

namespace AccCall

def call (c : AccCall) : Call :=
  match c.shape with
  | .single src dst bytes => .acc (c.type.scale c.factor) src dst bytes
  | .strided src srcStride dst dstStride count levels =>
    .accS (c.type.scale c.factor) src srcStride dst dstStride count levels
  | .vector iov => .accV (c.type.scale c.factor) iov

def addends (me proc : Nat) (c : AccCall) : List Addend :=
  (c.call.transfers.flatMap (Transfer.ends me proc)).map fun e => ⟨c.type, c.factor, e.1, e.2⟩

theorem transfers_eq (c : AccCall) {t : Transfer} (ht : t ∈ c.call.transfers) :
    t.kind = .acc ∧ t.base = c.type.base ∧ t.fill = (c.type.scale c.factor).applied := by
  obtain ⟨type, factor, shape⟩ := c
  cases shape with
  | single | strided =>
    obtain rfl := List.mem_singleton.mp ht
    exact ⟨rfl, type.base_scale factor, rfl⟩
  | vector iov =>
    obtain ⟨g, -, rfl⟩ := List.mem_map.mp ht
    exact ⟨rfl, type.base_scale factor, rfl⟩

theorem effects_call (me proc : Nat) (c : AccCall) :
    effects me proc c.call.transfers = (c.addends me proc).map Addend.move := by
  rw [effects, addends, List.map_map, List.map_flatMap]
  refine List.flatMap_congr fun t ht => ?_
  obtain ⟨hkind, hbase, hfill⟩ := c.transfers_eq ht
  rw [Transfer.effect, moveAll, hkind, hbase, hfill]
  rfl

end AccCall

-- ------------------------------
-- Processes
-- ------------------------------

def Slice.locs (proc : Nat) (slice : Slice) : Set Loc :=
  {l | l.1 = proc ∧ slice.base ≤ l.2 ∧ l.2 < slice.base + slice.size}

structure Accumulator where
  env : Env
  arena : Set Int
  calls : List AccCall
  history : List Act

namespace Accumulator

def program (proc : Nat) (x : Accumulator) : Script Act Unit :=
  runCalls x.env proc (x.calls.map AccCall.call)

def Returns (proc : Nat) (x : Accumulator) : Prop := (x.program proc).Returns x.history

def acts (proc : Nat) (x : Accumulator) : List Act := (x.program proc x.history).2

def transfers (x : Accumulator) : List Transfer := x.calls.flatMap fun c => c.call.transfers

def addends (proc : Nat) (x : Accumulator) : List Addend :=
  x.calls.flatMap (AccCall.addends x.env.me proc)

def reads (proc : Nat) (x : Accumulator) : Set Loc :=
  {l | ∃ t ∈ x.transfers, l ∈ t.sources x.env.me proc}

def writes (proc : Nat) (x : Accumulator) : Set Loc :=
  {l | ∃ t ∈ x.transfers, l ∈ t.targets x.env.me proc}

/-- Correct calls, to whole elements of a slice that holds no scratch memory. -/
structure Ok (proc : Nat) (slice : Slice) (x : Accumulator) : Prop where
  allocs : x.env.Allocs x.arena
  correct : ∀ c ∈ x.calls, c.call.Correct x.env proc x.arena
  inside : x.writes proc ⊆ slice.locs proc
  aligned : ∀ a ∈ x.addends proc, (a.type.size : Int) ∣ a.target.2 - slice.base
  outside : slice.locs proc ⊆ (scratch x.env.me x.arena)ᶜ

def Feasible (proc : Nat) (x : Accumulator) : Prop :=
  FeasibleCalls x.env proc (x.calls.map AccCall.call) x.history

section
variable {proc : Nat} {slice : Slice} {x y : Accumulator}

theorem transfers_map (x : Accumulator) :
    (x.calls.map AccCall.call).flatMap Call.transfers = x.transfers := by
  rw [transfers, List.flatMap_map]

theorem effects_eq (proc : Nat) (x : Accumulator) :
    effects x.env.me proc x.transfers = (x.addends proc).map Addend.move := by
  rw [transfers, addends, effects, List.flatMap_assoc, List.map_flatMap]
  exact List.flatMap_congr fun c _ => c.effects_call x.env.me proc

theorem mem_transfers (proc : Nat) {t : Transfer} (ht : t ∈ x.transfers) :
    ∃ c : AccCall, t.kind = .acc ∧ t.base = c.type.base ∧
      ∀ e ∈ t.ends x.env.me proc, ⟨c.type, c.factor, e.1, e.2⟩ ∈ x.addends proc := by
  obtain ⟨c, hc, ht⟩ := List.mem_flatMap.mp ht
  obtain ⟨hkind, hbase, -⟩ := c.transfers_eq ht
  refine ⟨c, hkind, hbase, fun e he => List.mem_flatMap.mpr ⟨c, hc, ?_⟩⟩
  exact List.mem_map_of_mem (List.mem_flatMap.mpr ⟨t, ht, he⟩)

theorem mem_addends {a : Addend} (ha : a ∈ x.addends proc) :
    a.reads ⊆ x.reads proc ∧ a.writes ⊆ x.writes proc := by
  obtain ⟨c, hc, ha⟩ := List.mem_flatMap.mp ha
  obtain ⟨e, he, rfl⟩ := List.mem_map.mp ha
  obtain ⟨t, ht, he⟩ := List.mem_flatMap.mp he
  have hmem : t ∈ x.transfers := List.mem_flatMap.mpr ⟨c, hc, ht⟩
  obtain ⟨hsrc, hdst⟩ := Transfer.ends_subset he
  rw [(c.transfers_eq ht).2.1] at hsrc hdst
  exact ⟨fun l hl => ⟨t, hmem, hsrc hl⟩, fun l hl => ⟨t, hmem, hdst hl⟩⟩

theorem reads_rank {l : Loc} (hl : l ∈ x.reads proc) : l.1 = x.env.me := by
  obtain ⟨t, ht, s, -, hl⟩ := hl
  obtain ⟨-, hkind, -⟩ := mem_transfers proc ht
  rw [hkind] at hl
  exact hl.1

theorem Ok.carries (h : x.Ok proc slice) (hret : x.Returns proc) :
    Carries x.env proc x.arena x.transfers (x.acts proc) := by
  obtain ⟨_, hok⟩ := hret
  rw [← x.transfers_map]
  exact runCalls_carries h.allocs (List.forall_mem_map.mpr h.correct) (Prod.ext hok rfl)

theorem Ok.returns (h : x.Ok proc slice) (hf : x.Feasible proc) : x.Returns proc :=
  runCalls_returns h.allocs (List.forall_mem_map.mpr h.correct) hf

theorem Ok.reads_subset (h : x.Ok proc slice) (hret : x.Returns proc) :
    x.reads proc ⊆ (scratch x.env.me x.arena)ᶜ := by
  rintro l ⟨t, ht, hl⟩
  exact ((h.carries hret).proper t ht).sources_subset hl

theorem Ok.foot (h : x.Ok proc slice) (hret : x.Returns proc) {p : Xfer Loc UInt8}
    (hp : p ∈ actXfers x.env.me (x.acts proc)) :
    p.src ⊆ x.reads proc ∪ scratch x.env.me x.arena ∧ (p.dst ⊆ scratch x.env.me x.arena ∨
      ∃ t ∈ x.transfers, t.Writes x.env.me proc p) := by
  have hcarry := h.carries hret
  obtain ⟨t, ht, a, hd, hp⟩ := hcarry.mem_xfers hp
  obtain ⟨hsrc, hdst⟩ := hd.foot (hcarry.proper t ht) hp
  refine ⟨fun l hl => (hsrc hl).imp (fun hl => ⟨t, ht, hl⟩) id, hdst.imp id fun hw => ⟨t, ht, hw⟩⟩

end

def start (proc : Nat) (x : Accumulator) : Proc Loc UInt8 Rma :=
  ⟨[], actSteps x.env.me (x.acts proc)⟩

theorem start_xfers (proc : Nat) (x : Accumulator) :
    (x.start proc).xfers = actXfers x.env.me (x.acts proc) := rfl

end Accumulator

-- ------------------------------
-- Processes together
-- ------------------------------

/-- Processes of different ranks. Nobody adds to what is read, and elements of
different types do not meet. -/
structure Together (proc : Nat) (slice : Slice) (xs : List Accumulator) : Prop where
  each : ∀ x ∈ xs, x.Ok proc slice
  ranks : (xs.map fun x => x.env.me).Nodup
  apart : ∀ x ∈ xs, ∀ y ∈ xs, Disjoint (x.writes proc) (y.reads proc)
  types : ∀ x ∈ xs, ∀ y ∈ xs, ∀ a ∈ x.addends proc, ∀ b ∈ y.addends proc, a.type ≠ b.type →
    Disjoint a.writes b.writes

def allAddends (proc : Nat) (xs : List Accumulator) : List Addend :=
  xs.flatMap (Accumulator.addends proc)

namespace Together

variable {proc : Nat} {slice : Slice} {xs : List Accumulator} {x y : Accumulator}

theorem meet (h : Together proc slice xs) (hx : x ∈ xs) (hy : y ∈ xs) {a b : Addend}
    (ha : a ∈ x.addends proc) (hb : b ∈ y.addends proc) :
    a.Hits b.type b.target ∨ Disjoint a.writes b.writes := by
  by_cases htype : a.type = b.type
  · by_cases htarget : a.target = b.target
    · exact .inl ⟨htarget, htype⟩
    · have haligned := (h.each x hx).aligned a ha
      rw [htype] at haligned
      have hdvd : (b.type.size : Int) ∣ a.target.2 - b.target.2 := by
        have hsub := Int.dvd_sub haligned ((h.each y hy).aligned b hb)
        rwa [show a.target.2 - slice.base - (b.target.2 - slice.base) = a.target.2 - b.target.2 by
          omega] at hsub
      refine .inr (block_disjoint fun hrank => ?_)
      rw [htype]
      rcases lt_trichotomy a.target.2 b.target.2 with hlt | heq | hlt
      · have hle := Int.le_of_dvd (by omega) ((Int.dvd_neg).mpr hdvd)
        omega
      · exact absurd (Prod.ext hrank heq) htarget
      · have hle := Int.le_of_dvd (by omega) hdvd
        omega
  · exact .inr (h.types x hx y hy a ha b hb htype)

theorem clear (h : Together proc slice xs) (hx : x ∈ xs) (hy : y ∈ xs) {t t' : Transfer}
    (ht : t ∈ x.transfers) (ht' : t' ∈ y.transfers) :
    t.Clear x.env.me y.env.me proc t' := by
  obtain ⟨c, hkind, hbase, hends⟩ := Accumulator.mem_transfers proc ht
  obtain ⟨c', hkind', hbase', hends'⟩ := Accumulator.mem_transfers proc ht'
  have hdst : t.targets x.env.me proc ⊆ x.writes proc := fun l hl => ⟨t, ht, hl⟩
  have hsrc : t'.sources y.env.me proc ⊆ y.reads proc := fun l hl => ⟨t', ht', hl⟩
  refine ⟨(h.apart x hx y hy).mono hdst hsrc, fun e he e' he' => ?_⟩
  rw [hbase, hbase']
  rcases h.meet hx hy (hends e he) (hends' e' he') with ⟨htarget, htype⟩ | hdisj
  · exact .inr ⟨htarget, hkind, hkind', congrArg IntType.base htype, c.type.whole⟩
  · exact .inl hdisj

theorem free (h : Together proc slice xs) (hx : x ∈ xs) (hret : x.Returns proc) :
    RaceFree ∅ (actSteps x.env.me (x.acts proc)) :=
  ((h.each x hx).carries hret).free
    (List.pairwise_of_forall_mem_list fun _ ht _ ht' => h.clear hx hx ht ht')

theorem writes_scratch (h : Together proc slice xs) (hx : x ∈ xs) (hy : y ∈ xs) :
    Disjoint (x.writes proc) (scratch y.env.me y.arena) :=
  disjoint_compl_left.mono_left ((h.each x hx).inside.trans (h.each y hy).outside)

theorem write_read (h : Together proc slice xs) (hx : x ∈ xs) (hy : y ∈ xs)
    (hne : x.env.me ≠ y.env.me) (hretx : x.Returns proc) (hrety : y.Returns proc)
    {p q : Xfer Loc UInt8} (hp : p ∈ actXfers x.env.me (x.acts proc))
    (hq : q ∈ actXfers y.env.me (y.acts proc)) : Disjoint p.dst q.src := by
  have hsrc := ((h.each y hy).foot hrety hq).1
  rcases ((h.each x hx).foot hretx hp).2 with hdst | ⟨t, ht, hwrites⟩
  · refine Set.disjoint_left.mpr fun l hl hl' => hne ?_
    have hrank : l.1 = y.env.me := (hsrc hl').elim Accumulator.reads_rank fun hl' => hl'.1
    exact (hdst hl).1.symm.trans hrank
  · have hdst : p.dst ⊆ x.writes proc := fun l hl => ⟨t, ht, hwrites.dst hl⟩
    exact (Disjoint.union_right (h.apart x hx y hy) (h.writes_scratch hx hy)).mono hdst hsrc

theorem indep (h : Together proc slice xs) (hx : x ∈ xs) (hy : y ∈ xs)
    (hne : x.env.me ≠ y.env.me) (hretx : x.Returns proc) (hrety : y.Returns proc)
    {p q : Xfer Loc UInt8} (hp : p ∈ actXfers x.env.me (x.acts proc))
    (hq : q ∈ actXfers y.env.me (y.acts proc)) : p.Indep q := by
  have hdst := h.write_read hx hy hne hretx hrety hp hq
  have hsrc := (h.write_read hy hx hne.symm hrety hretx hq hp).symm
  have hwrites : ∀ {z : Accumulator} {t : Transfer} {r : Xfer Loc UInt8}, t ∈ z.transfers →
      t.Writes z.env.me proc r → r.dst ⊆ z.writes proc := fun ht hw l hl => ⟨_, ht, hw.dst hl⟩
  rcases ((h.each x hx).foot hretx hp).2 with hpdst | ⟨t, ht, hpw⟩
  · refine Xfer.indep_of_disjoint hdst hsrc ?_
    rcases ((h.each y hy).foot hrety hq).2 with hqdst | ⟨t', ht', hqw⟩
    · exact Set.disjoint_left.mpr fun l hl hl' => hne ((hpdst hl).1.symm.trans (hqdst hl').1)
    · exact ((h.writes_scratch hy hx).mono (hwrites ht' hqw) hpdst).symm
  · rcases ((h.each y hy).foot hrety hq).2 with hqdst | ⟨t', ht', hqw⟩
    · exact Xfer.indep_of_disjoint hdst hsrc ((h.writes_scratch hx hy).mono (hwrites ht hpw) hqdst)
    · exact (h.clear hx hy ht ht').indep hpw hqw hsrc hdst

theorem safe (h : Together proc slice xs) (hret : ∀ x ∈ xs, x.Returns proc) :
    SysSafe (xs.map (Accumulator.start proc)) := by
  refine ⟨List.forall_mem_map.mpr fun x hx => Proc.safe_start (h.free hx (hret x hx)), ?_⟩
  rw [List.pairwise_map]
  refine (List.pairwise_map.mp h.ranks).imp_of_mem fun hx hy hne p hp q hq => ?_
  rw [Accumulator.start_xfers] at hp hq
  exact h.indep hx hy hne (hret _ hx) (hret _ hy) hp hq

-- ------------------------------
-- The memory at the end
-- ------------------------------

def settled (xs : List Accumulator) : Set Loc := {l | ∀ x ∈ xs, l ∉ scratch x.env.me x.arena}

theorem addend_settled (h : Together proc slice xs) (hret : ∀ x ∈ xs, x.Returns proc) (hx : x ∈ xs)
    {a : Addend} (ha : a ∈ x.addends proc) : a.reads ⊆ settled xs ∧ a.writes ⊆ settled xs := by
  obtain ⟨hreads, hwrites⟩ := Accumulator.mem_addends ha
  refine ⟨fun l hl y hy hscratch => ?_, fun l hl y hy hscratch =>
    (h.writes_scratch hx hy).notMem_of_mem_left (hwrites hl) hscratch⟩
  by_cases heq : x = y
  · subst heq
    exact (h.each x hx).reads_subset (hret x hx) (hreads hl) hscratch
  · have hrank : x.env.me = y.env.me := (Accumulator.reads_rank (hreads hl)).symm.trans hscratch.1
    exact heq (List.inj_on_of_nodup_map h.ranks hx hy hrank)

theorem applyAll_eqOn (h : Together proc slice xs) (hret : ∀ x ∈ xs, x.Returns proc) (m : Mem) :
    Set.EqOn (execAll (xs.map (Accumulator.start proc)) m)
      (Xfer.applyAll ((allAddends proc xs).map Addend.move) m) (settled xs) := by
  have hall : ∀ (ys : List Accumulator) (m : Mem), (∀ y ∈ ys, y ∈ xs) →
      Set.EqOn (Xfer.applyAll (ys.flatMap fun y => actXfers y.env.me (y.acts proc)) m)
        (Xfer.applyAll ((allAddends proc ys).map Addend.move) m) (settled xs) := by
    intro ys
    induction ys with
    | nil => exact fun m _ _ _ => rfl
    | cons y ys ih =>
      intro m hys
      obtain ⟨hy, hys⟩ := List.forall_mem_cons.mp hys
      have hfirst := ((h.each y hy).carries (hret y hy)).effect_eqOn m
      rw [Accumulator.effects_eq] at hfirst
      rw [allAddends, List.flatMap_cons, List.flatMap_cons, List.map_append, Xfer.applyAll_append,
        Xfer.applyAll_append]
      refine (ih _ hys).trans (Xfer.applyAll_congr (fun p hp => ?_)
        (hfirst.mono fun l hl => hl y hy))
      obtain ⟨a, ha, rfl⟩ := List.mem_map.mp hp
      obtain ⟨z, hz, ha⟩ := List.mem_flatMap.mp ha
      exact h.addend_settled hret (hys z hz) ha
  have hexec : execAll (xs.map (Accumulator.start proc)) m =
      Xfer.applyAll (xs.flatMap fun x => actXfers x.env.me (x.acts proc)) m := by
    rw [execAll, List.flatMap_map]
    rfl
  rw [hexec]
  exact hall xs m fun _ hx => hx

end Together

/-- When all accumulates are complete, each target element is its first value and
the sum of all addends that go to it. The calls do return if the distances between
the buffers of vectors sent by datatypes fit into an `int` and those of 0 bytes exist. -/
theorem accumulates_add {proc : Nat} {slice : Slice} {xs : List Accumulator}
    (h : Together proc slice xs) :
    (∀ x ∈ xs, x.Feasible proc → x.Returns proc) ∧
    ((∀ x ∈ xs, x.Returns proc) → ∀ m m' ps,
      Relation.ReflTransGen SysStep (m, xs.map (Accumulator.start proc)) (m', ps) →
      (∀ p ∈ ps, p.pool = [] ∧ p.rest = []) →
      ∀ a ∈ allAddends proc xs, a.type.valueAt m' a.target =
        (a.type.valueAt m a.target + (((allAddends proc xs).filter (·.target = a.target)).map
          (Addend.value m)).sum) % a.type.modulus) := by
  refine ⟨fun x hx hf => (h.each x hx).returns hf, fun hret m m' ps hrun hdone a ha => ?_⟩
  obtain ⟨x, hx, hax⟩ := List.mem_flatMap.mp ha
  have hwrites := (h.addend_settled hret hx hax).2
  rw [run_done hrun (h.safe hret) hdone,
    IntType.valueAt_congr ((h.applyAll_eqOn hret m).mono hwrites)]
  refine Addend.applyAll_move (fun b hb => ?_) (fun b hb c hc => ?_) m
  · obtain ⟨y, hy, hb⟩ := List.mem_flatMap.mp hb
    exact h.meet hy hx hb hax
  · obtain ⟨y, hy, hb⟩ := List.mem_flatMap.mp hb
    obtain ⟨z, hz, hc⟩ := List.mem_flatMap.mp hc
    exact (h.apart y hy z hz).mono (Accumulator.mem_addends hb).2 (Accumulator.mem_addends hc).1

/-- Both of two processes add a scaled integer of theirs to the first element of the
slice of the second one. -/
def pairAccumulator (factor : Int) (rank : Fin 2) : Accumulator where
  env := pairEnv defaultState rank 0
  arena := highArena
  calls := [⟨.int, factor, .single 64 8192 4⟩]
  history := []

theorem pairAccumulator_addends (factor : Int) (rank : Fin 2) :
    (pairAccumulator factor rank).addends 1 = [⟨.int, factor, (rank.val, 64), (1, 8192)⟩] := by
  have hme : (pairEnv defaultState rank 0).me = rank.val := rfl
  simp [pairAccumulator, Accumulator.addends, AccCall.addends, AccCall.call, Call.transfers,
    accTransfer, single, Transfer.ends, segPairs, IntType.scale, Scale.base, BaseType.size,
    RmaKind.ends, hme]

theorem pairAccumulator_locs (factor : Int) (rank : Fin 2) :
    (pairAccumulator factor rank).reads 1 ⊆ block (rank.val, 64) 4 ∧
      (pairAccumulator factor rank).writes 1 ⊆ block (1, 8192) 4 := by
  have hbytes : (accTransfer (.int factor) 64 8192 4).bytes = 4 := by
    simp [accTransfer, single, Transfer.bytes, Scale.base, BaseType.size]
  constructor
  all_goals
    rintro l ⟨t, ht, s, hs, hl⟩
    obtain rfl := List.mem_singleton.mp ht
    obtain rfl := List.mem_singleton.mp hs
    exact hbytes ▸ hl

theorem pairAccumulator_ok (factor : Int) (rank : Fin 2) :
    (pairAccumulator factor rank).Ok 1 ⟨8192, 64⟩ where
  allocs := pairEnv_allocs defaultState rank 0
  correct := List.forall_mem_singleton.mpr {
    shaped := ⟨rfl, show 4 ∣ 4 by decide⟩
    proper := List.forall_mem_singleton.mpr (apart_proper (.inl rfl) (show 0 < 4 / 4 by decide)
      (by decide) (show (64 : Int) + (4 / 4 * 4 : Nat) ≤ 8192 by decide)
      (show (8192 : Int) + (4 / 4 * 4 : Nat) ≤ 2 ^ 20 by decide)
      (fun _ hx => IntType.int.applied_length factor hx) fun hk => by cases hk)
    range := List.forall_mem_singleton.mpr ⟨pairRegion defaultState rank, rfl,
      List.forall_mem_singleton.mpr ⟨show (8192 : Int) ≤ 8192 by decide,
        show (8192 : Int) < 8192 + 64 by decide,
        show (8192 : Int) + (4 / 4 * 4 : Nat) ≤ 8192 + 64 by decide⟩⟩ }
  inside := fun l hl => by
    obtain ⟨hrank, hge, hlt⟩ := (pairAccumulator_locs factor rank).2 hl
    simp only at hge hlt
    exact ⟨hrank, hge, show l.2 < 8192 + 64 by omega⟩
  aligned := by
    rw [pairAccumulator_addends]
    exact List.forall_mem_singleton.mpr (show (4 : Int) ∣ 8192 - 8192 by decide)
  outside := fun l hl hscratch => by
    have hlt : l.2 < 8192 + 64 := hl.2.2
    have hge : 2 ^ 20 ≤ l.2 := hscratch.2
    omega

theorem pairAccumulator_together :
    Together 1 ⟨8192, 64⟩ [pairAccumulator 3 0, pairAccumulator 5 1] where
  each := List.forall_mem_cons.mpr ⟨pairAccumulator_ok 3 0,
    List.forall_mem_singleton.mpr (pairAccumulator_ok 5 1)⟩
  ranks := show [0, 1].Nodup by decide
  apart := by
    have hpair : ∀ (f f' : Int) (r r' : Fin 2),
        Disjoint ((pairAccumulator f r).writes 1) ((pairAccumulator f' r').reads 1) := by
      intro f f' r r'
      refine Set.disjoint_left.mpr fun l hl hl' => ?_
      have hge : 8192 ≤ l.2 := ((pairAccumulator_locs f r).2 hl).2.1
      have hlt : l.2 < 64 + (4 : Nat) := ((pairAccumulator_locs f' r').1 hl').2.2
      omega
    simp [hpair]
  types := by simp [pairAccumulator_addends]

theorem accumulates_add_pair : ∃ m', Relation.ReflTransGen SysStep
    (fun l => if l.2 = 64 then 1 else 0,
      [pairAccumulator 3 0, pairAccumulator 5 1].map (Accumulator.start 1))
    (m', [⟨[], []⟩, ⟨[], []⟩]) ∧ IntType.int.valueAt m' (1, 8192) = 8 := by
  obtain ⟨hret, hall⟩ := accumulates_add pairAccumulator_together
  have hbytes : ∀ f : Int, (accTransfer (IntType.int.scale f) 64 8192 4).bytes = 4 := fun f =>
    accTransfer_bytes (Dvd.intro 1 rfl)
  have hf : ∀ (f : Int) (r : Fin 2), (pairAccumulator f r).Feasible 1 := fun f r =>
    ⟨Call.feasible_of_not_usesDatatypes (by rintro (huse | huse) <;> cases huse)
      (List.forall_mem_singleton.mpr ((hbytes f).trans_ne (by decide))), trivial⟩
  have hrets : ∀ x ∈ [pairAccumulator 3 0, pairAccumulator 5 1], x.Returns 1 :=
    List.forall_mem_cons.mpr ⟨hret _ List.mem_cons_self (hf 3 0),
      List.forall_mem_singleton.mpr (hret _ (by simp) (hf 5 1))⟩
  have hrun := exists_run [actSteps 0 ((pairAccumulator 3 0).acts 1),
    actSteps 1 ((pairAccumulator 5 1).acts 1)] fun l => if l.2 = 64 then 1 else 0
  have hadds : allAddends 1 [pairAccumulator 3 0, pairAccumulator 5 1] =
      [⟨.int, 3, (0, 64), (1, 8192)⟩, ⟨.int, 5, (1, 64), (1, 8192)⟩] := by
    simp [allAddends, pairAccumulator_addends]
  have hsum := hall hrets _ _ _ hrun (by simp)
  rw [hadds] at hsum
  exact ⟨_, hrun, (hsum _ List.mem_cons_self).trans (by decide)⟩

end ArmciMpi
