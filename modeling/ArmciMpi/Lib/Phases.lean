import ArmciMpi.Lib.Parts
import Mathlib.Algebra.GroupWithZero.Nat
import Mathlib.Algebra.Order.BigOperators.Group.Finset
import Mathlib.Data.Finset.Max
import Mathlib.Data.Fintype.Basic
import Mathlib.Data.List.FinRange

/-!
# Programs in phases

Processes with delayed transfers that meet at a barrier at the end of every
phase. A process leaves the barrier on its own once all have come to it, so
that some are in the next phase while others still wait.

If the transfers of a phase do not depend on each other and every process comes
to its barrier with nothing in flight, the phases might as well take place one
after the other, and in each of them one process after the other
(`phases_finish`). No process waits for ever, and no run goes on for ever
(`phaseStep_wellFounded`).
-/

namespace Lib

variable {L V K : Type} {n : Nat}

/-- A process in a phase, and the phases it has not begun. -/
structure Worker (L V K : Type) where
  proc : Proc L V K
  later : List (List (Step L V K))

def Opens (ws : Fin n → Worker L V K) (i : Fin n) : Prop :=
  (ws i).proc.rest = [] ∧ ∀ j, (ws j).later.length < (ws i).later.length ∨
    (ws j).later.length = (ws i).later.length ∧ (ws j).proc.rest = []

inductive PhaseStep :
    (L → V) × (Fin n → Worker L V K) → (L → V) × (Fin n → Worker L V K) → Prop
  | work (m ws i m' p') (h : Proc.Steps m (ws i).proc m' p') :
      PhaseStep (m, ws) (m', Function.update ws i ⟨p', (ws i).later⟩)
  | leave (m ws i s later) (hlater : (ws i).later = s :: later) (h : Opens ws i) :
      PhaseStep (m, ws) (m, Function.update ws i ⟨⟨(ws i).proc.pool, s⟩, later⟩)

def beginPhases (phases : List (Fin n → List (Step L V K))) (i : Fin n) : Worker L V K :=
  ⟨⟨[], []⟩, phases.map (· i)⟩

def phaseMem (ph : Fin n → List (Step L V K)) (m : L → V) : L → V :=
  Xfer.applyAll ((List.finRange n).flatMap fun i => stepXfers (ph i)) m

def phasesMem (phases : List (Fin n → List (Step L V K))) (m : L → V) : L → V :=
  phases.foldl (fun m ph => phaseMem ph m) m

/-- Nothing races in the phase, and nothing is in flight at its end. -/
structure PhaseSafe (ph : Fin n → List (Step L V K)) : Prop where
  free : ∀ i, RaceFree ∅ (ph i)
  drained : ∀ i, after ∅ (ph i) = ∅
  apart : ∀ i j, i ≠ j → ∀ x ∈ stepXfers (ph i), ∀ y ∈ stepXfers (ph j), x.Indep y

-- ------------------------------
-- Families of processes
-- ------------------------------

def procList (ps : Fin n → Proc L V K) : List (Proc L V K) := (List.finRange n).map ps

section
variable {ps : Fin n → Proc L V K} {p' : Proc L V K} {m m' : L → V} {i : Fin n}

theorem SysStep.update (h : Proc.Steps m (ps i) m' p') :
    SysStep (m, procList ps) (m', procList (Function.update ps i p')) := by
  obtain ⟨pre, post, hsplit⟩ := List.append_of_mem (List.mem_finRange i)
  have hnodup := List.nodup_finRange n
  rw [hsplit] at hnodup
  obtain ⟨hnot, -⟩ := List.nodup_cons.mp (List.nodup_middle.mp hnodup)
  -- the others are as they were
  have hsame : ∀ l : List (Fin n), (∀ j ∈ l, j ∈ pre ++ post) →
      l.map (Function.update ps i p') = l.map ps := fun l hl =>
    List.map_congr_left fun j hj => by
      rw [Function.update_of_ne]
      rintro rfl
      exact hnot (hl j hj)
  simp only [procList, hsplit, List.map_append, List.map_cons, Function.update_self,
    hsame pre fun j hj => List.mem_append_left _ hj,
    hsame post fun j hj => List.mem_append_right _ hj]
  exact .step m m' _ _ _ _ h

theorem PhaseSafe.sysSafe {ph : Fin n → List (Step L V K)} (h : PhaseSafe ph) :
    SysSafe (procList fun i => ⟨[], ph i⟩) := by
  refine ⟨List.forall_mem_map.mpr fun i _ => Proc.safe_start (h.free i), ?_⟩
  rw [procList, List.pairwise_map]
  exact (List.nodup_finRange n).imp fun {i j} hij x hx y hy => h.apart i j hij x hx y hy

theorem execAll_begin (ph : Fin n → List (Step L V K)) (m : L → V) :
    execAll (procList fun i => ⟨[], ph i⟩) m = phaseMem ph m := by
  simp [execAll, procList, phaseMem, List.flatMap_map, Proc.xfers, stepXfers]

theorem execAll_idle (h : ∀ i, ps i = ⟨[], []⟩) (m : L → V) : execAll (procList ps) m = m := by
  have hnil : (procList ps).flatMap Proc.xfers = [] := by
    refine List.flatMap_eq_nil_iff.mpr fun p hp => ?_
    obtain ⟨i, -, rfl⟩ := List.mem_map.mp hp
    rw [h i]
    rfl
  rw [execAll, hnil]
  rfl

end

-- ------------------------------
-- The invariant
-- ------------------------------

/-- The worker is at `p` with `later` to do, or it still waits at the barrier before
that. -/
def Worker.Stands (w : Worker L V K) (p : Proc L V K) (later : List (List (Step L V K))) : Prop :=
  w = ⟨p, later⟩ ∨ p.pool = [] ∧ w = ⟨⟨[], []⟩, p.rest :: later⟩

/-- Nothing of the process is in flight when it comes to its barrier. -/
def Proc.Drains (p : Proc L V K) : Prop := after {q | q ∈ p.pool} p.rest = ∅

/-- `ps` are the processes in the phase that the first of them has begun, `coming` the
phases after it, and `final` is the memory in the end. -/
structure InPhase (m : L → V) (ws : Fin n → Worker L V K) (ps : Fin n → Proc L V K)
    (coming : List (Fin n → List (Step L V K))) (final : L → V) : Prop where
  stands : ∀ i, (ws i).Stands (ps i) (coming.map (· i))
  safe : SysSafe (procList ps)
  drains : ∀ i, (ps i).Drains
  ready : ∀ ph ∈ coming, PhaseSafe ph
  final : phasesMem coming (execAll (procList ps) m) = final

section
variable {m m' final : L → V} {ws ws' : Fin n → Worker L V K} {ps : Fin n → Proc L V K}
  {coming : List (Fin n → List (Step L V K))}

theorem Proc.Steps.drains {p p' : Proc L V K} (h : Proc.Steps m p m' p') (hp : p.Drains) :
    p'.Drains := by
  refine Set.eq_empty_iff_forall_notMem.mpr fun q hq => ?_
  obtain ⟨r, hr, -⟩ := Proc.Steps.after h q hq
  rw [hp] at hr
  exact hr

theorem Proc.Drains.idle {p : Proc L V K} (h : p.Drains) (hrest : p.rest = []) : p = ⟨[], []⟩ := by
  obtain ⟨pool, rest⟩ := p
  cases hrest
  have hpool : pool = [] := List.eq_nil_iff_forall_not_mem.mpr fun q hq =>
    Set.eq_empty_iff_forall_notMem.mp h q hq
  rw [hpool]

theorem Proc.Steps.not_idle {p' : Proc L V K} : ¬ Proc.Steps m ⟨[], []⟩ m' p' := by
  intro h
  generalize hp : (⟨[], []⟩ : Proc L V K) = p at h
  cases h <;> simp at hp

theorem InPhase.begin {phases : List (Fin n → List (Step L V K))}
    (h : ∀ ph ∈ phases, PhaseSafe ph) (m : L → V) :
    InPhase m (beginPhases phases) (fun _ => ⟨[], []⟩) phases (phasesMem phases m) where
  stands _ := .inl rfl
  safe := ⟨List.forall_mem_map.mpr fun _ _ => Proc.safe_start trivial, by
    rw [procList, List.pairwise_map]
    exact List.pairwise_of_forall fun _ _ _ hx => absurd hx List.not_mem_nil⟩
  drains _ := mem_nil_eq_empty
  ready := h
  final := by rw [execAll_idle fun _ => rfl]

theorem InPhase.work (h : InPhase m ws ps coming final) {i : Fin n} {p' : Proc L V K}
    (hstep : Proc.Steps m (ws i).proc m' p') :
    InPhase m' (Function.update ws i ⟨p', (ws i).later⟩) (Function.update ps i p') coming
      final := by
  obtain hi | ⟨-, hi⟩ := h.stands i
  · rw [hi] at hstep ⊢
    have hsys := SysStep.update hstep
    refine ⟨fun j => ?_, hsys.safe h.safe, fun j => ?_, h.ready, ?_⟩
    · by_cases hj : j = i
      · subst hj
        simp only [Function.update_self]
        exact .inl rfl
      · simp only [Function.update_of_ne hj]
        exact h.stands j
    · by_cases hj : j = i
      · subst hj
        rw [Function.update_self]
        exact hstep.drains (h.drains j)
      · rw [Function.update_of_ne hj]
        exact h.drains j
    · rw [hsys.execAll_eq h.safe]
      exact h.final
  · rw [hi] at hstep
    exact absurd hstep Proc.Steps.not_idle

theorem InPhase.follow (h : InPhase m ws ps coming final) {i : Fin n}
    {s : List (Step L V K)} {later : List (List (Step L V K))}
    (hpool : (ps i).pool = []) (hi : ws i = ⟨⟨[], []⟩, (ps i).rest :: coming.map (· i)⟩)
    (hlater : (ws i).later = s :: later) :
    InPhase m (Function.update ws i ⟨⟨(ws i).proc.pool, s⟩, later⟩) ps coming final := by
  rw [hi] at hlater ⊢
  cases hlater
  refine ⟨fun j => ?_, h.safe, h.drains, h.ready, h.final⟩
  by_cases hj : j = i
  · subst hj
    rw [Function.update_self]
    refine .inl ?_
    rw [← hpool]
  · rw [Function.update_of_ne hj]
    exact h.stands j

theorem InPhase.lead (h : InPhase m ws ps coming final) {i : Fin n}
    {s : List (Step L V K)} {later : List (List (Step L V K))}
    (hi : ws i = ⟨ps i, coming.map (· i)⟩) (hlater : (ws i).later = s :: later)
    (hopens : Opens ws i) :
    ∃ ps' coming', InPhase m (Function.update ws i ⟨⟨(ws i).proc.pool, s⟩, later⟩) ps' coming'
      final := by
  have hidle : ∀ j, ws j = ⟨⟨[], []⟩, coming.map (· j)⟩ ∧ ps j = ⟨[], []⟩ := by
    intro j
    have hj := hopens.2 j
    rw [hi] at hj
    rcases h.stands j with hat | ⟨-, hbehind⟩
    · rw [hat] at hj ⊢
      simp only [List.length_map, lt_self_iff_false, true_and, false_or] at hj
      rw [(h.drains j).idle hj]
      exact ⟨rfl, rfl⟩
    · rw [hbehind] at hj
      simp only [List.length_cons, List.length_map] at hj
      omega
  cases coming with
  | nil =>
    rw [hi] at hlater
    cases hlater
  | cons ph coming =>
    obtain ⟨hph, hready⟩ := List.forall_mem_cons.mp h.ready
    rw [(hidle i).1] at hlater ⊢
    cases hlater
    refine ⟨fun j => ⟨[], ph j⟩, coming, fun j => ?_, hph.sysSafe, fun j => ?_, hready, ?_⟩
    · by_cases hj : j = i
      · subst hj
        rw [Function.update_self]
        exact .inl rfl
      · rw [Function.update_of_ne hj]
        exact .inr ⟨rfl, (hidle j).1⟩
    · show after {q | q ∈ ([] : List (Flight L V K))} (ph j) = ∅
      rw [mem_nil_eq_empty]
      exact hph.drained j
    · rw [execAll_begin]
      have hfinal := h.final
      rwa [execAll_idle fun j => (hidle j).2] at hfinal

theorem InPhase.step (h : InPhase m ws ps coming final) (hstep : PhaseStep (m, ws) (m', ws')) :
    ∃ ps' coming', InPhase m' ws' ps' coming' final := by
  cases hstep with
  | work _ _ i _ p' hp => exact ⟨_, _, h.work hp⟩
  | leave _ _ i s later hlater hopens =>
    rcases h.stands i with hi | ⟨hpool, hi⟩
    · exact h.lead hi hlater hopens
    · exact ⟨_, _, h.follow hpool hi hlater⟩

/-- What the phases make of the memory is settled in every state of a run. -/
theorem phases_invariant {phases : List (Fin n → List (Step L V K))}
    (hsafe : ∀ ph ∈ phases, PhaseSafe ph)
    (hrun : Relation.ReflTransGen PhaseStep (m, beginPhases phases) (m', ws)) :
    ∃ ps coming, InPhase m' ws ps coming (phasesMem phases m) := by
  generalize hfin : (m', ws) = fin at hrun
  induction hrun generalizing m' ws with
  | refl =>
    cases hfin
    exact ⟨_, _, .begin hsafe m⟩
  | @tail mid fin _ hstep ih =>
    subst hfin
    obtain ⟨ps, coming, h⟩ := ih rfl
    exact h.step hstep

end

-- ------------------------------
-- Progress
-- ------------------------------

section
variable {m : L → V} {ws : Fin n → Worker L V K}

theorem Proc.exists_step (m : L → V) {p : Proc L V K} (hp : p ≠ ⟨[], []⟩) :
    ∃ m' p', Proc.Steps m p m' p' := by
  obtain ⟨pool, rest⟩ := p
  cases pool with
  | cons q pool =>
    cases hq : q.held with
    | false => exact ⟨_, _, .read [] q pool rest hq⟩
    | true => exact ⟨_, _, .write [] q pool rest hq⟩
  | nil =>
    cases rest with
    | nil => exact absurd rfl hp
    | cons step rest =>
      cases step with
      | now x => exact ⟨_, _, .now [] x rest⟩
      | issue key fetch xs => exact ⟨_, _, .issue [] key fetch xs rest⟩
      | wait full loc => exact ⟨_, _, .wait [] full loc rest (by simp)⟩

theorem phaseStep_progress (m : L → V) (h : ∃ i, ws i ≠ ⟨⟨[], []⟩, []⟩) :
    ∃ s, PhaseStep (m, ws) s := by
  by_cases hbusy : ∃ i, (ws i).proc ≠ ⟨[], []⟩
  · obtain ⟨i, hi⟩ := hbusy
    obtain ⟨m', p', hstep⟩ := Proc.exists_step m hi
    exact ⟨_, .work m ws i m' p' hstep⟩
  · -- all are at a barrier, and the one that is furthest behind can leave it
    simp only [not_exists, not_not] at hbusy
    obtain ⟨k, hk⟩ := h
    obtain ⟨i, -, hmax⟩ := Finset.exists_max_image Finset.univ (fun i => (ws i).later.length)
      ⟨k, Finset.mem_univ k⟩
    cases hlater : (ws i).later with
    | nil =>
      have hlen := hmax k (Finset.mem_univ k)
      rw [hlater] at hlen
      refine absurd ?_ hk
      rw [← hbusy k, ← List.length_eq_zero_iff.mp (Nat.le_zero.mp hlen)]
    | cons s later =>
      refine ⟨_, .leave m ws i s later hlater ⟨by rw [hbusy i], fun j => ?_⟩⟩
      rcases (hmax j (Finset.mem_univ j)).lt_or_eq with hlt | heq
      · exact .inl hlt
      · exact .inr ⟨heq, by rw [hbusy j]⟩

/-- A run of safe phases that cannot go on is over, and the memory is that of one phase
after the other. -/
theorem phases_finish {m m' : L → V} {phases : List (Fin n → List (Step L V K))}
    (hsafe : ∀ ph ∈ phases, PhaseSafe ph)
    (hrun : Relation.ReflTransGen PhaseStep (m, beginPhases phases) (m', ws))
    (hend : ∀ s, ¬ PhaseStep (m', ws) s) :
    (∀ i, ws i = ⟨⟨[], []⟩, []⟩) ∧ m' = phasesMem phases m := by
  have hover : ∀ i, ws i = ⟨⟨[], []⟩, []⟩ := by
    by_contra hnot
    obtain ⟨s, hs⟩ := phaseStep_progress m' (not_forall.mp hnot)
    exact hend s hs
  obtain ⟨ps, coming, h⟩ := phases_invariant hsafe hrun
  refine ⟨hover, ?_⟩
  have hstands : ∀ i, ps i = ⟨[], []⟩ ∧ coming.map (· i) = [] := by
    intro i
    rcases h.stands i with hi | ⟨-, hi⟩
    · obtain ⟨hp, hlater⟩ := Worker.mk.inj ((hover i).symm.trans hi)
      exact ⟨hp.symm, hlater.symm⟩
    · cases congrArg Worker.later ((hover i).symm.trans hi)
  have hfinal := h.final
  rw [execAll_idle fun i => (hstands i).1] at hfinal
  cases coming with
  | nil => exact hfinal
  | cons ph coming =>
    -- there is no process that could still have a phase to come
    cases n with
    | zero =>
      have hnone : ∀ (phases : List (Fin 0 → List (Step L V K))) (m : L → V),
          phasesMem phases m = m := by
        intro phases
        induction phases with
        | nil => exact fun m => rfl
        | cons ph phases ih => exact fun m => ih m
      rw [hnone] at hfinal
      exact hfinal
    | succ n => cases (hstands 0).2

end

-- ------------------------------
-- Termination
-- ------------------------------

def Step.cost : Step L V K → Nat
  | .now _ | .wait _ _ => 1
  | .issue _ _ xs => 1 + 2 * xs.length

def stepsCost (s : List (Step L V K)) : Nat := (s.map Step.cost).sum

def Flight.cost (p : Flight L V K) : Nat := if p.held then 1 else 2

def Proc.cost (p : Proc L V K) : Nat := (p.pool.map Flight.cost).sum + stepsCost p.rest

def Worker.cost (w : Worker L V K) : Nat :=
  w.proc.cost + (w.later.map fun s => 1 + stepsCost s).sum

section
variable {m m' : L → V} {ws : Fin n → Worker L V K}

theorem flights_cost (key : K) (fetch : Bool) (xs : List (Xfer L V)) :
    ((flights key fetch xs).map Flight.cost).sum = 2 * xs.length := by
  induction xs with
  | nil => rfl
  | cons x xs ih =>
    simp only [flights, List.map_cons, List.sum_cons, Flight.cost] at ih ⊢
    simp only [ih, List.length_cons]
    simp
    omega

theorem Proc.Steps.cost_lt {p p' : Proc L V K} (h : Proc.Steps m p m' p') : p'.cost < p.cost := by
  cases h with
  | now P x s => simp [Proc.cost, stepsCost, Step.cost]
  | issue P key fetch xs s =>
    simp only [Proc.cost, stepsCost, List.map_append, List.sum_append, flights_cost, List.map_cons,
      List.sum_cons, Step.cost]
    omega
  | wait P full loc s _ => simp [Proc.cost, stepsCost, Step.cost]
  | read P p Q s hp => simp [Proc.cost, Flight.cost, Flight.hold, hp]
  | write P p Q s hp => simp [Proc.cost, Flight.cost, hp]

theorem PhaseStep.cost_lt {a b : (L → V) × (Fin n → Worker L V K)} (h : PhaseStep a b) :
    ∑ i, (b.2 i).cost < ∑ i, (a.2 i).cost := by
  have hupdate : ∀ (ws : Fin n → Worker L V K) (i : Fin n) (w : Worker L V K),
      w.cost < (ws i).cost →
        ∑ j, (Function.update ws i w j).cost < ∑ j, (ws j).cost := by
    intro ws i w hlt
    refine Finset.sum_lt_sum (fun j _ => ?_) ⟨i, Finset.mem_univ i, by rwa [Function.update_self]⟩
    by_cases hj : j = i
    · subst hj
      rw [Function.update_self]
      exact hlt.le
    · rw [Function.update_of_ne hj]
  cases h with
  | work m ws i m' p' hp =>
    exact hupdate ws i _ (Nat.add_lt_add_right hp.cost_lt _)
  | leave m ws i s later hlater hopens =>
    refine hupdate ws i _ ?_
    simp only [Worker.cost, Proc.cost, hlater, hopens.1, List.map_cons, List.sum_cons, stepsCost,
      List.map_nil, List.sum_nil]
    omega

theorem phaseStep_wellFounded :
    WellFounded fun b a : (L → V) × (Fin n → Worker L V K) => PhaseStep a b :=
  Subrelation.wf (fun h => PhaseStep.cost_lt h)
    (measure fun s : (L → V) × (Fin n → Worker L V K) => ∑ i, (s.2 i).cost).wf

theorem exists_phases_end (a : (L → V) × (Fin n → Worker L V K)) :
    ∃ b, Relation.ReflTransGen PhaseStep a b ∧ ∀ c, ¬ PhaseStep b c := by
  induction a using phaseStep_wellFounded.induction with
  | _ a ih =>
    by_cases hstep : ∃ b, PhaseStep a b
    · obtain ⟨b, hb⟩ := hstep
      obtain ⟨c, hrun, hend⟩ := ih b hb
      exact ⟨c, .head hb hrun, hend⟩
    · exact ⟨a, .refl, not_exists.mp hstep⟩

end

end Lib
