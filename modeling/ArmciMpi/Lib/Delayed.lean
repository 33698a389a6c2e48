import Mathlib.Data.Set.Lattice
import Mathlib.Order.CompletePartialOrder
import Mathlib.Data.Set.Function
import Mathlib.Data.List.Pairwise
import Mathlib.Logic.Relation
import Mathlib.Tactic.Tauto

/-!
# Delayed transfers

A transfer reads some locations and updates others. A process performs
transfers itself or issues them; an issued transfer is in flight until the
machine has read its source and written its target, in two separate steps that
may come at any later time and in any order. A wait holds the process back
until its transfers are complete, or complete at its own end: a fetch is then
written, and any other transfer has read its source.

`Proc.exec` is the plain reading of a program, in which an issued transfer
takes effect at once. `run_exec` says that processes whose transfers in flight
are independent of everything done meanwhile cannot tell the difference: what
the plain reading makes of the memory is the same in every state of every run,
so that a run with nothing left in flight ends in the memory of the plain
reading.
-/

namespace Lib

/-- `run a b` reads the source in the memory `a` and updates the memory `b`. -/
structure Xfer (L V : Type) where
  src : Set L
  dst : Set L
  run : (L → V) → (L → V) → L → V
  frame : ∀ a b l, l ∉ dst → run a b l = b l
  source : ∀ a a' b, Set.EqOn a a' src → run a b = run a' b
  target : ∀ a b b', Set.EqOn b b' dst → Set.EqOn (run a b) (run a b') dst

namespace Xfer

variable {L V : Type}

def apply (x : Xfer L V) (m : L → V) : L → V := x.run m m

def applyAll (xs : List (Xfer L V)) (m : L → V) : L → V := xs.foldl (fun m x => x.apply m) m

/-- The transfer whose source has been read in `a`. -/
def hold (x : Xfer L V) (a : L → V) : Xfer L V where
  src := ∅
  dst := x.dst
  run := fun _ b => x.run a b
  frame := fun _ b l => x.frame a b l
  source := fun _ _ _ _ => rfl
  target := fun _ b b' => x.target a b b'

structure Indep (x y : Xfer L V) : Prop where
  dst_src : Disjoint x.dst y.src
  src_dst : Disjoint x.src y.dst
  comm : ∀ a a' b, x.run a (y.run a' b) = y.run a' (x.run a b)

variable {x y : Xfer L V}

theorem Indep.symm (h : x.Indep y) : y.Indep x :=
  ⟨h.src_dst.symm, h.dst_src.symm, fun a a' b => (h.comm a' a b).symm⟩

theorem Indep.hold (h : x.Indep y) (a : L → V) : (x.hold a).Indep y :=
  ⟨h.dst_src, Set.empty_disjoint _, fun _ a' b => h.comm a a' b⟩

theorem run_eqOn (x : Xfer L V) {s : Set L} (hs : Disjoint x.dst s) (a b : L → V) :
    Set.EqOn (x.run a b) b s := fun l hl => x.frame a b l (hs.notMem_of_mem_right hl)

theorem indep_of_disjoint (h₁ : Disjoint x.dst y.src) (h₂ : Disjoint x.src y.dst)
    (h₃ : Disjoint x.dst y.dst) : x.Indep y := by
  refine ⟨h₁, h₂, fun a a' b => funext fun l => ?_⟩
  by_cases hx : l ∈ x.dst
  · have hy := h₃.notMem_of_mem_left hx
    rw [y.frame _ _ _ hy, x.target a _ b (y.run_eqOn h₃.symm a' b) hx]
  · rw [x.frame _ _ _ hx]
    by_cases hy : l ∈ y.dst
    · exact (y.target a' _ b (x.run_eqOn h₃ a b) hy).symm
    · rw [y.frame _ _ _ hy, y.frame _ _ _ hy, x.frame _ _ _ hx]

theorem Indep.apply_comm (h : x.Indep y) (m : L → V) :
    x.apply (y.apply m) = y.apply (x.apply m) :=
  calc x.run (y.run m m) (y.run m m)
      = x.run m (y.run m m) := x.source _ _ _ (y.run_eqOn h.src_dst.symm m m)
    _ = y.run m (x.run m m) := h.comm m m m
    _ = y.run (x.run m m) (x.run m m) := (y.source _ _ _ (x.run_eqOn h.dst_src m m)).symm

@[simp] theorem applyAll_nil (m : L → V) : applyAll [] m = m := rfl

@[simp] theorem applyAll_cons (x : Xfer L V) (xs : List (Xfer L V)) (m : L → V) :
    applyAll (x :: xs) m = applyAll xs (x.apply m) := rfl

theorem applyAll_append (xs ys : List (Xfer L V)) (m : L → V) :
    applyAll (xs ++ ys) m = applyAll ys (applyAll xs m) := List.foldl_append

theorem applyAll_apply_comm {xs : List (Xfer L V)} (h : ∀ x ∈ xs, x.Indep y) (m : L → V) :
    applyAll xs (y.apply m) = y.apply (applyAll xs m) := by
  induction xs generalizing m with
  | nil => rfl
  | cons x xs ih =>
    rw [applyAll_cons, applyAll_cons, (h x List.mem_cons_self).apply_comm,
      ih fun z hz => h z (List.mem_cons_of_mem x hz)]

theorem applyAll_congr {xs : List (Xfer L V)} {s : Set L} (h : ∀ x ∈ xs, x.src ⊆ s ∧ x.dst ⊆ s)
    {m m' : L → V} (hm : Set.EqOn m m' s) : Set.EqOn (applyAll xs m) (applyAll xs m') s := by
  induction xs generalizing m m' with
  | nil => exact hm
  | cons x xs ih =>
    obtain ⟨hsrc, hdst⟩ := h x List.mem_cons_self
    refine ih (fun y hy => h y (List.mem_cons_of_mem x hy)) fun l hl => ?_
    show x.run m m l = x.run m' m' l
    rw [x.source m m' m (hm.mono hsrc)]
    by_cases hx : l ∈ x.dst
    · exact x.target m' m m' (hm.mono hdst) hx
    · rw [x.frame _ _ _ hx, x.frame _ _ _ hx, hm hl]

theorem applyAll_eqOn {xs : List (Xfer L V)} {s : Set L} (h : ∀ x ∈ xs, Disjoint x.dst s)
    (m : L → V) : Set.EqOn (applyAll xs m) m s := by
  induction xs generalizing m with
  | nil => exact fun _ _ => rfl
  | cons x xs ih =>
    intro l hl
    rw [applyAll_cons, ih (fun z hz => h z (List.mem_cons_of_mem x hz)) _ hl]
    exact x.run_eqOn (h x List.mem_cons_self) m m hl

end Xfer

-- ------------------------------
-- Processes
-- ------------------------------

structure Flight (L V K : Type) where
  x : Xfer L V
  key : K
  fetch : Bool
  held : Bool

def Flight.hold {L V K : Type} (p : Flight L V K) (a : L → V) : Flight L V K :=
  { p with x := p.x.hold a, held := true }

inductive Step (L V K : Type)
  /-- The process itself performs a transfer. -/
  | now (x : Xfer L V)
  | issue (key : K) (fetch : Bool) (xs : List (Xfer L V))
  /-- Transfers with a key in `full` must be complete, those with a key in `loc`
  complete at the origin. -/
  | wait (full loc : K → Prop)

namespace Step

variable {L V K : Type}

def xfers : Step L V K → List (Xfer L V)
  | now x => [x]
  | issue _ _ xs => xs
  | wait _ _ => []

@[simp] theorem xfers_now (x : Xfer L V) : (now x : Step L V K).xfers = [x] := rfl

@[simp] theorem xfers_issue (key : K) (fetch : Bool) (xs : List (Xfer L V)) :
    (issue key fetch xs).xfers = xs := rfl

@[simp] theorem xfers_wait (full loc : K → Prop) : (wait full loc : Step L V K).xfers = [] := rfl

end Step

structure Proc (L V K : Type) where
  pool : List (Flight L V K)
  rest : List (Step L V K)

variable {L V K : Type}

def Flight.Passes (full loc : K → Prop) (p : Flight L V K) : Prop :=
  ¬ full p.key ∧ (loc p.key → p.fetch = false ∧ p.held = true)

def flights (key : K) (fetch : Bool) (xs : List (Xfer L V)) : List (Flight L V K) :=
  xs.map fun x => ⟨x, key, fetch, false⟩

inductive Proc.Steps (m : L → V) : Proc L V K → (L → V) → Proc L V K → Prop
  | now (P x s) : Steps m ⟨P, .now x :: s⟩ (x.apply m) ⟨P, s⟩
  | issue (P key fetch xs s) :
      Steps m ⟨P, .issue key fetch xs :: s⟩ m ⟨P ++ flights key fetch xs, s⟩
  | wait (P full loc s) (h : ∀ p ∈ P, p.Passes full loc) :
      Steps m ⟨P, .wait full loc :: s⟩ m ⟨P, s⟩
  | read (P p Q s) (h : p.held = false) : Steps m ⟨P ++ p :: Q, s⟩ m ⟨P ++ p.hold m :: Q, s⟩
  | write (P p Q s) (h : p.held = true) :
      Steps m ⟨P ++ p :: Q, s⟩ (p.x.apply m) ⟨P ++ Q, s⟩

inductive SysStep : (L → V) × List (Proc L V K) → (L → V) × List (Proc L V K) → Prop
  | step (m m' ps p p' qs) (h : Proc.Steps m p m' p') :
      SysStep (m, ps ++ p :: qs) (m', ps ++ p' :: qs)

def Proc.xfers (p : Proc L V K) : List (Xfer L V) :=
  p.pool.map Flight.x ++ p.rest.flatMap Step.xfers

/-- The memory when all that is in flight or left to do takes place at once, one
process after the other. -/
def execAll (ps : List (Proc L V K)) (m : L → V) : L → V :=
  Xfer.applyAll (ps.flatMap Proc.xfers) m

-- ------------------------------
-- Independence
-- ------------------------------

def Flight.Of (q p : Flight L V K) : Prop := q = p ∨ ∃ a, q = p.hold a

/-- Whatever is in flight is independent of what is done meanwhile. `S` holds
the flights that may be in flight. -/
def RaceFree : Set (Flight L V K) → List (Step L V K) → Prop
  | _, [] => True
  | S, .now x :: s => (∀ p ∈ S, p.x.Indep x) ∧ RaceFree S s
  | S, .issue key fetch xs :: s =>
    xs.Pairwise Xfer.Indep ∧ (∀ p ∈ S, ∀ x ∈ xs, p.x.Indep x) ∧
      RaceFree (S ∪ {p | p ∈ flights key fetch xs}) s
  | S, .wait full loc :: s => RaceFree {q | (∃ p ∈ S, q.Of p) ∧ q.Passes full loc} s

def Proc.Apart (p q : Proc L V K) : Prop := ∀ x ∈ p.xfers, ∀ y ∈ q.xfers, x.Indep y

structure Proc.Safe (p : Proc L V K) : Prop where
  pool : (p.pool.map Flight.x).Pairwise Xfer.Indep
  free : RaceFree {q | q ∈ p.pool} p.rest

theorem Flight.Of.refl (p : Flight L V K) : p.Of p := .inl rfl

theorem Flight.Of.trans {p q r : Flight L V K} (h₁ : r.Of q) (h₂ : q.Of p) : r.Of p := by
  obtain rfl | ⟨a, rfl⟩ := h₁
  · exact h₂
  · obtain rfl | ⟨b, rfl⟩ := h₂
    · exact .inr ⟨a, rfl⟩
    · exact .inr ⟨b, rfl⟩

theorem Flight.Of.indep {p q : Flight L V K} (h : q.Of p) {y : Xfer L V} (hy : p.x.Indep y) :
    q.x.Indep y := by
  obtain rfl | ⟨a, rfl⟩ := h
  · exact hy
  · exact hy.hold a

theorem RaceFree.mono {S S' : Set (Flight L V K)} {s : List (Step L V K)}
    (hS : ∀ q ∈ S', ∃ p ∈ S, q.Of p) (h : RaceFree S s) : RaceFree S' s := by
  induction s generalizing S S' with
  | nil => trivial
  | cons t s ih =>
    cases t with
    | now x =>
      refine ⟨fun q hq => ?_, ih hS h.2⟩
      obtain ⟨p, hp, hof⟩ := hS q hq
      exact hof.indep (h.1 p hp)
    | issue key fetch xs =>
      refine ⟨h.1, fun q hq x hx => ?_, ih (fun q hq => ?_) h.2.2⟩
      · obtain ⟨p, hp, hof⟩ := hS q hq
        exact hof.indep (h.2.1 p hp x hx)
      · rcases hq with hq | hq
        · obtain ⟨p, hp, hof⟩ := hS q hq
          exact ⟨p, .inl hp, hof⟩
        · exact ⟨q, .inr hq, .refl q⟩
    | wait full loc =>
      refine ih (fun q hq => ?_) h
      obtain ⟨⟨p, hp, hof⟩, hpass⟩ := hq
      obtain ⟨p', hp', hof'⟩ := hS p hp
      exact ⟨q, ⟨⟨p', hp', hof.trans hof'⟩, hpass⟩, .refl q⟩

-- ------------------------------
-- Steps
-- ------------------------------

theorem Xfer.applyAll_pull {pre : List (Xfer L V)} {x : Xfer L V} (h : ∀ y ∈ pre, y.Indep x)
    (post : List (Xfer L V)) (m : L → V) :
    applyAll (pre ++ post) (x.apply m) = applyAll (pre ++ x :: post) m := by
  rw [applyAll_append, applyAll_append, applyAll_cons, applyAll_apply_comm h]

theorem Xfer.applyAll_hold {pre : List (Xfer L V)} {x : Xfer L V}
    (h : ∀ y ∈ pre, Disjoint y.dst x.src) (post : List (Xfer L V)) (m : L → V) :
    applyAll (pre ++ x.hold m :: post) m = applyAll (pre ++ x :: post) m := by
  rw [applyAll_append, applyAll_append, applyAll_cons, applyAll_cons]
  congr 1
  exact x.source m (applyAll pre m) _ (Set.EqOn.symm (applyAll_eqOn h m))

theorem flights_map_x (key : K) (fetch : Bool) (xs : List (Xfer L V)) :
    (flights key fetch xs).map Flight.x = xs := by
  simp [flights, Function.comp_def]

theorem Proc.Steps.safe {m m' : L → V} {p p' : Proc L V K} (h : Proc.Steps m p m' p')
    (hp : p.Safe) : p'.Safe := by
  obtain ⟨hpool, hfree⟩ := hp
  cases h with
  | now => exact ⟨hpool, hfree.2⟩
  | issue P key fetch xs s =>
    obtain ⟨hxs, hcross, hrest⟩ := hfree
    refine ⟨?_, hrest.mono fun q hq => ⟨q, List.mem_append.mp hq, .refl q⟩⟩
    rw [List.map_append, flights_map_x]
    refine List.pairwise_append.mpr ⟨hpool, hxs, fun x hx y hy => ?_⟩
    obtain ⟨q, hq, rfl⟩ := List.mem_map.mp hx
    exact hcross q hq y hy
  | wait P full loc s hpass =>
    refine ⟨hpool, RaceFree.mono (fun q hq => ?_) hfree⟩
    exact ⟨q, ⟨⟨q, hq, .refl q⟩, hpass q hq⟩, .refl q⟩
  | read P p Q s _ =>
    refine ⟨?_, hfree.mono fun q hq => ?_⟩
    · simp only [List.map_append, List.map_cons, List.pairwise_append, List.pairwise_cons,
        List.mem_cons] at hpool ⊢
      obtain ⟨hP, ⟨hpQ, hQ⟩, hcross⟩ := hpool
      refine ⟨hP, ⟨fun y hy => (hpQ y hy).hold m, hQ⟩, fun x hx y hy => ?_⟩
      rcases hy with rfl | hy
      · exact ((hcross x hx _ (.inl rfl)).symm.hold m).symm
      · exact hcross x hx y (.inr hy)
    · simp only [Set.mem_ofPred_eq, List.mem_append, List.mem_cons] at hq ⊢
      rcases hq with hq | rfl | hq
      · exact ⟨q, .inl hq, .refl q⟩
      · exact ⟨p, .inr (.inl rfl), .inr ⟨m, rfl⟩⟩
      · exact ⟨q, .inr (.inr hq), .refl q⟩
  | write P p Q s _ =>
    have hsub : (P ++ Q).Sublist (P ++ p :: Q) := (List.sublist_cons_self p Q).append_left P
    exact ⟨hpool.sublist (hsub.map Flight.x),
      hfree.mono fun q hq => ⟨q, hsub.subset hq, .refl q⟩⟩

theorem Proc.Steps.xfers_of {m m' : L → V} {p p' : Proc L V K} (h : Proc.Steps m p m' p') :
    ∀ x' ∈ p'.xfers, ∃ x ∈ p.xfers, x' = x ∨ ∃ a, x' = x.hold a := by
  intro x' hx'
  cases h with
  | now P x s =>
    refine ⟨x', ?_, .inl rfl⟩
    simp only [Proc.xfers, List.flatMap_cons, Step.xfers_now, List.mem_append] at hx' ⊢
    tauto
  | issue P key fetch xs s =>
    exact ⟨x', by simpa [Proc.xfers, flights_map_x] using hx', .inl rfl⟩
  | wait P full loc s _ => exact ⟨x', by simpa [Proc.xfers] using hx', .inl rfl⟩
  | read P p Q s _ =>
    simp only [Proc.xfers, List.map_append, List.map_cons, List.mem_append, List.mem_cons] at hx' ⊢
    rcases hx' with (hP | rfl | hQ) | hs
    · exact ⟨x', .inl (.inl hP), .inl rfl⟩
    · exact ⟨p.x, .inl (.inr (.inl rfl)), .inr ⟨m, rfl⟩⟩
    · exact ⟨x', .inl (.inr (.inr hQ)), .inl rfl⟩
    · exact ⟨x', .inr hs, .inl rfl⟩
  | write P p Q s _ =>
    refine ⟨x', ?_, .inl rfl⟩
    simp only [Proc.xfers, List.map_append, List.map_cons, List.mem_append, List.mem_cons] at hx' ⊢
    tauto

theorem Proc.Apart.symm {p q : Proc L V K} (h : p.Apart q) : q.Apart p :=
  fun x hx y hy => (h y hy x hx).symm

theorem Proc.Steps.apart {m m' : L → V} {p p' q : Proc L V K} (h : Proc.Steps m p m' p')
    (hq : p.Apart q) : p'.Apart q := by
  intro x' hx' y hy
  obtain ⟨x, hx, rfl | ⟨a, rfl⟩⟩ := h.xfers_of x' hx'
  · exact hq x' hx y hy
  · exact (hq x hx y hy).hold a

theorem Flight.indep_of_before {P Q : List (Flight L V K)} {p : Flight L V K}
    (h : ((P ++ p :: Q).map Flight.x).Pairwise Xfer.Indep) {y : Xfer L V}
    (hy : y ∈ P.map Flight.x) : y.Indep p.x := by
  rw [List.map_append, List.pairwise_append] at h
  exact h.2.2 y hy p.x (by simp)

/-- The plain reading is the same before and after a step, when the processes
`pre` come before this one and everything else after it. -/
theorem Proc.Steps.applyAll_eq {m m' : L → V} {p p' : Proc L V K} (h : Proc.Steps m p m' p')
    (hp : p.Safe) {pre : List (Xfer L V)} (hpre : ∀ y ∈ pre, ∀ x ∈ p.xfers, y.Indep x)
    (post : List (Xfer L V)) :
    Xfer.applyAll (pre ++ (p'.xfers ++ post)) m' = Xfer.applyAll (pre ++ (p.xfers ++ post)) m := by
  obtain ⟨hpool, hfree⟩ := hp
  cases h with
  | now P x s =>
    have hbefore : ∀ y ∈ pre ++ P.map Flight.x, y.Indep x := by
      intro y hy
      rcases List.mem_append.mp hy with hy | hy
      · exact hpre y hy x (by simp [Proc.xfers])
      · obtain ⟨q, hq, rfl⟩ := List.mem_map.mp hy
        exact hfree.1 q hq
    simpa [Proc.xfers] using Xfer.applyAll_pull hbefore (s.flatMap Step.xfers ++ post) m
  | issue P key fetch xs s => simp [Proc.xfers, flights_map_x]
  | wait P full loc s _ => simp [Proc.xfers]
  | read P p Q s _ =>
    have hbefore : ∀ y ∈ pre ++ P.map Flight.x, y.Indep p.x := fun y hy =>
      (List.mem_append.mp hy).elim (fun hy => hpre y hy p.x (by simp [Proc.xfers]))
        (Flight.indep_of_before hpool)
    simpa [Proc.xfers, Flight.hold] using Xfer.applyAll_hold
      (fun y hy => (hbefore y hy).dst_src) (Q.map Flight.x ++ (s.flatMap Step.xfers ++ post)) m
  | write P p Q s _ =>
    have hbefore : ∀ y ∈ pre ++ P.map Flight.x, y.Indep p.x := fun y hy =>
      (List.mem_append.mp hy).elim (fun hy => hpre y hy p.x (by simp [Proc.xfers]))
        (Flight.indep_of_before hpool)
    simpa [Proc.xfers] using Xfer.applyAll_pull hbefore
      (Q.map Flight.x ++ (s.flatMap Step.xfers ++ post)) m

-- ------------------------------
-- Runs
-- ------------------------------

/-- Every process is free of races, and so are any two of them. -/
structure SysSafe (ps : List (Proc L V K)) : Prop where
  each : ∀ p ∈ ps, p.Safe
  apart : ps.Pairwise Proc.Apart

theorem SysStep.safe {m m' : L → V} {ps ps' : List (Proc L V K)}
    (h : SysStep (m, ps) (m', ps')) (hs : SysSafe ps) : SysSafe ps' := by
  obtain ⟨_, _, pre, p, p', post, hstep⟩ := h
  obtain ⟨hpre, hpp, hcross⟩ := List.pairwise_append.mp hs.apart
  obtain ⟨hpost, hrest⟩ := List.pairwise_cons.mp hpp
  refine ⟨fun q hq => ?_, List.pairwise_append.mpr ⟨hpre,
    List.pairwise_cons.mpr ⟨fun q hq => hstep.apart (hpost q hq), hrest⟩, fun q hq r hr => ?_⟩⟩
  · rcases List.mem_append.mp hq with hq | hq
    · exact hs.each q (List.mem_append_left _ hq)
    · rcases List.mem_cons.mp hq with rfl | hq
      · exact hstep.safe (hs.each p (by simp))
      · exact hs.each q (by simp [hq])
  · rcases List.mem_cons.mp hr with rfl | hr
    · exact (hstep.apart (hcross q hq p (by simp)).symm).symm
    · exact hcross q hq r (by simp [hr])

theorem SysStep.execAll_eq {m m' : L → V} {ps ps' : List (Proc L V K)}
    (h : SysStep (m, ps) (m', ps')) (hs : SysSafe ps) : execAll ps' m' = execAll ps m := by
  obtain ⟨_, _, pre, p, p', post, hstep⟩ := h
  have hbefore : ∀ y ∈ pre.flatMap Proc.xfers, ∀ x ∈ p.xfers, y.Indep x := by
    intro y hy x hx
    obtain ⟨q, hq, hy⟩ := List.mem_flatMap.mp hy
    exact (List.pairwise_append.mp hs.apart).2.2 q hq p (by simp) y hy x hx
  simpa [execAll] using
    hstep.applyAll_eq (hs.each p (by simp)) hbefore (post.flatMap Proc.xfers)

/-- What the plain reading makes of the memory is the same in every state of a
run. -/
theorem run_exec {m m' : L → V} {ps ps' : List (Proc L V K)}
    (h : Relation.ReflTransGen SysStep (m, ps) (m', ps')) (hs : SysSafe ps) :
    SysSafe ps' ∧ execAll ps' m' = execAll ps m := by
  generalize hfin : (m', ps') = fin at h
  induction h generalizing m' ps' with
  | refl =>
    cases hfin
    exact ⟨hs, rfl⟩
  | @tail mid fin _ hstep ih =>
    subst hfin
    obtain ⟨hsafe, heq⟩ := ih rfl
    exact ⟨hstep.safe hsafe, (hstep.execAll_eq hsafe).trans heq⟩

/-- A run that is over, with nothing left in flight, ends in the memory of the
plain reading. -/
theorem run_done {m m' : L → V} {ps ps' : List (Proc L V K)}
    (h : Relation.ReflTransGen SysStep (m, ps) (m', ps')) (hs : SysSafe ps)
    (hdone : ∀ p ∈ ps', p.pool = [] ∧ p.rest = []) : m' = execAll ps m := by
  have hnil : ps'.flatMap Proc.xfers = [] :=
    List.flatMap_eq_nil_iff.mpr fun p hp => by simp [Proc.xfers, hdone p hp]
  have heq := (run_exec h hs).2
  rwa [execAll, hnil] at heq

end Lib
