import ArmciMpi.Lib.Delayed

/-!
# Delayed transfers in programs of several parts

`after` is what the parts of a program leave in flight for each other: freedom
from races is checked part by part (`raceFree_append`), each part by itself
when what is left in flight does not concern it (`RaceFree.union`). A run up to
the end of a part is a run of the parts before (`run_part`), so that the memory
there is that of the plain reading when nothing is left in flight
(`run_part_done`).

`exists_run` gives every system a run in which each transfer takes place at
once, so that statements about all finished runs are not empty.
-/

namespace Lib

variable {L V K : Type}

def stepXfers (s : List (Step L V K)) : List (Xfer L V) := s.flatMap Step.xfers

theorem stepXfers_append (s t : List (Step L V K)) :
    stepXfers (s ++ t) = stepXfers s ++ stepXfers t := List.flatMap_append

def waited (full loc : K → Prop) (S : Set (Flight L V K)) : Set (Flight L V K) :=
  {q | (∃ p ∈ S, q.Of p) ∧ q.Passes full loc}

def after : Set (Flight L V K) → List (Step L V K) → Set (Flight L V K)
  | S, [] => S
  | S, .now _ :: s => after S s
  | S, .issue key fetch xs :: s => after (S ∪ {p | p ∈ flights key fetch xs}) s
  | S, .wait full loc :: s => after (waited full loc S) s

theorem after_append (S : Set (Flight L V K)) (s t : List (Step L V K)) :
    after S (s ++ t) = after (after S s) t := by
  induction s generalizing S with
  | nil => rfl
  | cons step s ih => cases step <;> exact ih _

theorem raceFree_append {S : Set (Flight L V K)} {s t : List (Step L V K)} :
    RaceFree S (s ++ t) ↔ RaceFree S s ∧ RaceFree (after S s) t := by
  induction s generalizing S with
  | nil => simp [RaceFree, after]
  | cons step s ih =>
    cases step with
    | now x => simp only [List.cons_append, RaceFree, after, ih, and_assoc]
    | issue key fetch xs => simp only [List.cons_append, RaceFree, after, ih, and_assoc]
    | wait full loc => exact ih

/-- Transfers that are all independent of each other do not race, whenever they
take place. -/
theorem raceFree_of_indep {S : Set (Flight L V K)} {s : List (Step L V K)}
    (hS : ∀ p ∈ S, ∀ x ∈ stepXfers s, p.x.Indep x) (hs : (stepXfers s).Pairwise Xfer.Indep) :
    RaceFree S s := by
  induction s generalizing S with
  | nil => trivial
  | cons step s ih =>
    simp only [stepXfers, List.flatMap_cons, List.pairwise_append, List.mem_append] at hS hs
    obtain ⟨hstep, hrest, hcross⟩ := hs
    cases step with
    | now x =>
      exact ⟨fun p hp => hS p hp x (.inl List.mem_cons_self),
        ih (fun p hp y hy => hS p hp y (.inr hy)) hrest⟩
    | issue key fetch xs =>
      refine ⟨hstep, fun p hp x hx => hS p hp x (.inl hx), ih (fun p hp y hy => ?_) hrest⟩
      rcases hp with hp | hp
      · exact hS p hp y (.inr hy)
      · obtain ⟨x, hx, rfl⟩ := List.mem_map.mp hp
        exact hcross x hx y hy
    | wait full loc =>
      refine ih (fun q hq y hy => ?_) hrest
      obtain ⟨⟨p, hp, hof⟩, -⟩ := hq
      exact hof.indep (hS p hp y (.inr hy))

def ofSet (S : Set (Flight L V K)) : Set (Flight L V K) := {q | ∃ p ∈ S, q.Of p}

theorem RaceFree.union {S T : Set (Flight L V K)} {s : List (Step L V K)} (h : RaceFree S s)
    (hT : ∀ p ∈ T, ∀ x ∈ stepXfers s, p.x.Indep x) : RaceFree (S ∪ T) s := by
  induction s generalizing S T with
  | nil => trivial
  | cons step s ih =>
    simp only [stepXfers, List.flatMap_cons, List.mem_append] at hT
    cases step with
    | now x =>
      refine ⟨fun p hp => ?_, ih h.2 fun p hp y hy => hT p hp y (.inr hy)⟩
      exact hp.elim (h.1 p) fun hp => hT p hp x (.inl List.mem_cons_self)
    | issue key fetch xs =>
      refine ⟨h.1, fun p hp x hx => ?_, ?_⟩
      · exact hp.elim (fun hp => h.2.1 p hp x hx) fun hp => hT p hp x (.inl hx)
      · rw [Set.union_right_comm]
        exact ih h.2.2 fun p hp y hy => hT p hp y (.inr hy)
    | wait full loc =>
      have hrest : RaceFree (waited full loc S ∪ ofSet T) s := by
        refine ih h fun q hq y hy => ?_
        obtain ⟨p, hp, hof⟩ := hq
        exact hof.indep (hT p hp y (.inr hy))
      show RaceFree (waited full loc (S ∪ T)) s
      refine hrest.mono fun q hq => ⟨q, ?_, .refl q⟩
      obtain ⟨⟨p, hp, hof⟩, hpass⟩ := hq
      exact hp.imp (fun hp => ⟨⟨p, hp, hof⟩, hpass⟩) fun hp => ⟨p, hp, hof⟩

theorem after_subset {S : Set (Flight L V K)} {s : List (Step L V K)} {q : Flight L V K}
    (hq : q ∈ after S s) :
    (∃ p ∈ S, q.Of p) ∨
      ∃ key fetch xs, .issue key fetch xs ∈ s ∧ ∃ p ∈ flights key fetch xs, q.Of p := by
  induction s generalizing S with
  | nil => exact .inl ⟨q, hq, .refl q⟩
  | cons step s ih =>
    have hmem : ∀ {key : K} {fetch xs}, Step.issue key fetch xs ∈ s →
        Step.issue key fetch xs ∈ step :: s := fun h => List.mem_cons_of_mem step h
    cases step with
    | now x =>
      exact (ih hq).imp_right fun ⟨key, fetch, xs, h, hp⟩ => ⟨key, fetch, xs, hmem h, hp⟩
    | issue key fetch xs =>
      rcases ih hq with ⟨p, hp | hp, hof⟩ | ⟨key', fetch', xs', h, hp⟩
      · exact .inl ⟨p, hp, hof⟩
      · exact .inr ⟨key, fetch, xs, List.mem_cons_self, p, hp, hof⟩
      · exact .inr ⟨key', fetch', xs', hmem h, hp⟩
    | wait full loc =>
      rcases ih hq with ⟨p, ⟨⟨p', hp', hof'⟩, -⟩, hof⟩ | ⟨key', fetch', xs', h, hp⟩
      · exact .inl ⟨p', hp', hof.trans hof'⟩
      · exact .inr ⟨key', fetch', xs', hmem h, hp⟩

theorem after_waits_passes {S : Set (Flight L V K)} {s : List (Step L V K)}
    (hs : ∀ step ∈ s, ∃ full loc, step = .wait full loc) {q : Flight L V K} (hq : q ∈ after S s) :
    (∃ p ∈ S, q.Of p) ∧ ∀ full loc, .wait full loc ∈ s → q.Passes full loc := by
  induction s generalizing S with
  | nil => exact ⟨⟨q, hq, .refl q⟩, fun _ _ h => absurd h List.not_mem_nil⟩
  | cons step s ih =>
    obtain ⟨full, loc, rfl⟩ := hs step List.mem_cons_self
    obtain ⟨⟨p, ⟨⟨p₀, hp₀, hof₀⟩, hpass⟩, hof⟩, hrest⟩ :=
      ih (fun t ht => hs t (List.mem_cons_of_mem _ ht)) hq
    refine ⟨⟨p₀, hp₀, hof.trans hof₀⟩, fun full' loc' hmem => ?_⟩
    rcases List.mem_cons.mp hmem with heq | hmem
    · cases heq
      obtain rfl | ⟨_, rfl⟩ := hof
      · exact hpass
      · exact ⟨hpass.1, fun hloc => ⟨(hpass.2 hloc).1, rfl⟩⟩
    · exact hrest full' loc' hmem

theorem after_waits {S : Set (Flight L V K)} {s : List (Step L V K)}
    (hs : ∀ step ∈ s, ∃ full loc, step = .wait full loc) {q : Flight L V K} (hq : q ∈ after S s) :
    (∃ p ∈ S, q.Of p) ∧ ∀ full loc, .wait full loc ∈ s → ¬ full q.key :=
  (after_waits_passes hs hq).imp_right fun h full loc hmem => (h full loc hmem).1

theorem after_mono {S S' : Set (Flight L V K)} (hS : ∀ q ∈ S', ∃ p ∈ S, q.Of p)
    (s : List (Step L V K)) : ∀ q ∈ after S' s, ∃ p ∈ after S s, q.Of p := by
  induction s generalizing S S' with
  | nil => exact hS
  | cons step s ih =>
    cases step with
    | now x => exact ih hS
    | issue key fetch xs =>
      refine ih fun q hq => ?_
      rcases hq with hq | hq
      · obtain ⟨p, hp, hof⟩ := hS q hq
        exact ⟨p, .inl hp, hof⟩
      · exact ⟨q, .inr hq, .refl q⟩
    | wait full loc =>
      refine ih fun q hq => ?_
      obtain ⟨⟨p, hp, hof⟩, hpass⟩ := hq
      obtain ⟨p', hp', hof'⟩ := hS p hp
      exact ⟨q, ⟨⟨p', hp', hof.trans hof'⟩, hpass⟩, .refl q⟩

theorem waited_union (full loc : K → Prop) (S T : Set (Flight L V K)) :
    waited full loc (S ∪ T) = waited full loc S ∪ waited full loc T := by
  ext q
  constructor
  · rintro ⟨⟨p, hp | hp, hof⟩, hpass⟩
    · exact .inl ⟨⟨p, hp, hof⟩, hpass⟩
    · exact .inr ⟨⟨p, hp, hof⟩, hpass⟩
  · rintro (⟨⟨p, hp, hof⟩, hpass⟩ | ⟨⟨p, hp, hof⟩, hpass⟩)
    · exact ⟨⟨p, .inl hp, hof⟩, hpass⟩
    · exact ⟨⟨p, .inr hp, hof⟩, hpass⟩

theorem after_union (S T : Set (Flight L V K)) (s : List (Step L V K)) :
    after (S ∪ T) s = after S s ∪ after T s := by
  induction s generalizing S T with
  | nil => rfl
  | cons step s ih =>
    cases step with
    | now x => exact ih S T
    | issue key fetch xs =>
      simp only [after]
      rw [Set.union_union_distrib_right, ih]
    | wait full loc =>
      simp only [after]
      rw [waited_union, ih]

theorem mem_after {S : Set (Flight L V K)} {s : List (Step L V K)} {q : Flight L V K}
    (hq : q ∈ after S s) : (∃ p ∈ S, q.Of p) ∨ q ∈ after ∅ s := by
  induction s generalizing S with
  | nil => exact .inl ⟨q, hq, .refl q⟩
  | cons step s ih =>
    cases step with
    | now x => exact ih hq
    | issue key fetch xs =>
      simp only [after, after_union, Set.mem_union] at hq ⊢
      rcases hq with hq | hq
      · exact (ih hq).imp_right .inl
      · exact .inr (.inr hq)
    | wait full loc =>
      rcases ih hq with ⟨p, ⟨⟨p', hp', hof'⟩, -⟩, hof⟩ | hq
      · exact .inl ⟨p', hp', hof.trans hof'⟩
      · have hnone : waited full loc (∅ : Set (Flight L V K)) = ∅ :=
          Set.eq_empty_iff_forall_notMem.mpr fun _ ⟨⟨_, hp, _⟩, _⟩ => hp
        simp only [after, hnone]
        exact .inr hq

-- ------------------------------
-- Runs of one process
-- ------------------------------

def ProcStep (a b : (L → V) × Proc L V K) : Prop := Proc.Steps a.1 a.2 b.1 b.2

theorem Proc.Steps.head {m m' : L → V} {p p' : Proc L V K} {c : (L → V) × Proc L V K}
    (h : Proc.Steps m p m' p') (hrun : Relation.ReflTransGen ProcStep (m', p') c) :
    Relation.ReflTransGen ProcStep (m, p) c := .head (show ProcStep (m, p) (m', p') from h) hrun

theorem Proc.Steps.rest_suffix {m m' : L → V} {p p' : Proc L V K} (h : Proc.Steps m p m' p') :
    p'.rest <:+ p.rest := by
  cases h with
  | now | issue | wait => exact List.suffix_cons _ _
  | read | write => exact List.suffix_refl _

theorem Proc.Steps.rest_eq {m m' : L → V} {p p' : Proc L V K} (h : Proc.Steps m p m' p') :
    p.rest = p'.rest ∨ ∃ step, p.rest = step :: p'.rest := by
  cases h with
  | now | issue | wait => exact .inr ⟨_, rfl⟩
  | read | write => exact .inl rfl

theorem Proc.Steps.frame {m m' : L → V} {p p' : Proc L V K} (h : Proc.Steps m p m' p') {s : Set L}
    (hs : ∀ x ∈ p.xfers, Disjoint x.dst s) : Set.EqOn m' m s := by
  cases h with
  | now P x t => exact x.run_eqOn (hs x (by simp [Proc.xfers])) m m
  | issue | wait | read => exact fun _ _ => rfl
  | write P p Q t _ => exact p.x.run_eqOn (hs p.x (by simp [Proc.xfers])) m m

theorem run_rest_suffix {a b : (L → V) × Proc L V K} (h : Relation.ReflTransGen ProcStep a b) :
    b.2.rest <:+ a.2.rest := by
  induction h with
  | refl => exact List.suffix_refl _
  | tail _ hstep ih => exact (Proc.Steps.rest_suffix hstep).trans ih

theorem Proc.Steps.after {m m' : L → V} {P P' : List (Flight L V K)} {r r' : List (Step L V K)}
    (h : Proc.Steps m ⟨P, r⟩ m' ⟨P', r'⟩) :
    ∀ q ∈ after {p | p ∈ P'} r', ∃ p ∈ after {p | p ∈ P} r, q.Of p := by
  cases h with
  | now => exact fun q hq => ⟨q, hq, .refl q⟩
  | issue P key fetch xs s =>
    exact after_mono (fun q hq => ⟨q, List.mem_append.mp hq, .refl q⟩) r'
  | wait P full loc s hpass =>
    exact after_mono (S := waited full loc {p | p ∈ P})
      (fun q hq => ⟨q, ⟨⟨q, hq, .refl q⟩, hpass q hq⟩, .refl q⟩) r'
  | read P p Q s _ =>
    refine after_mono (fun q hq => ?_) r
    rcases List.mem_append.mp hq with hq | hq
    · exact ⟨q, List.mem_append_left _ hq, .refl q⟩
    · rcases List.mem_cons.mp hq with rfl | hq
      · exact ⟨p, List.mem_append_right _ List.mem_cons_self, .inr ⟨m, rfl⟩⟩
      · exact ⟨q, List.mem_append_right _ (List.mem_cons_of_mem _ hq), .refl q⟩
  | write P p Q s _ =>
    exact after_mono (fun q hq =>
      ⟨q, ((List.sublist_cons_self p Q).append_left P).subset hq, .refl q⟩) r

/-- A step that leaves the part `t` alone is one of the parts before it. -/
theorem Proc.Steps.part {m m' : L → V} {P P' : List (Flight L V K)} {r t : List (Step L V K)}
    {rest : List (Step L V K)} (h : Proc.Steps m ⟨P, r ++ t⟩ m' ⟨P', rest⟩) (hlen : t <:+ rest) :
    ∃ r', rest = r' ++ t ∧ Proc.Steps m ⟨P, r⟩ m' ⟨P', r'⟩ := by
  obtain ⟨r', rfl⟩ := hlen
  refine ⟨r', rfl, ?_⟩
  generalize hfull : r ++ t = full at h
  generalize hrest : r' ++ t = rest at h
  -- a step of the program takes the first step of `r`: `t` would be too long otherwise
  have hcons : ∀ step, full = step :: rest → r = step :: r' := fun step hstep => by
    have heq : r ++ t = (step :: r') ++ t := by rw [hfull, hstep, ← hrest]; rfl
    exact List.append_cancel_right heq
  cases h with
  | now P x s => exact hcons _ rfl ▸ .now P x r'
  | issue P key fetch xs s => exact hcons _ rfl ▸ .issue P key fetch xs r'
  | wait P full loc s hpass => exact hcons _ rfl ▸ .wait P full loc r' hpass
  | read P p Q s hp => exact List.append_cancel_right (hrest.trans hfull.symm) ▸ .read P p Q r' hp
  | write P p Q s hp => exact List.append_cancel_right (hrest.trans hfull.symm) ▸ .write P p Q r' hp

/-- A run that has not reached the part `t` is a run of the parts before it. -/
theorem run_part {m m' : L → V} {P P' : List (Flight L V K)} {r r' t : List (Step L V K)}
    (h : Relation.ReflTransGen ProcStep (m, ⟨P, r ++ t⟩) (m', ⟨P', r' ++ t⟩)) :
    Relation.ReflTransGen ProcStep (m, ⟨P, r⟩) (m', ⟨P', r'⟩) := by
  generalize hinit : (m, (⟨P, r ++ t⟩ : Proc L V K)) = init at h
  induction h using Relation.ReflTransGen.head_induction_on generalizing m P r with
  | refl =>
    simp only [Prod.mk.injEq, Proc.mk.injEq, List.append_left_inj] at hinit
    obtain ⟨rfl, rfl, rfl⟩ := hinit
    exact .refl
  | @head a b hstep hrun ih =>
    subst hinit
    obtain ⟨mb, Pb, rest⟩ := b
    obtain ⟨r', rfl, hpart⟩ :=
      Proc.Steps.part hstep ((List.suffix_append _ t).trans (run_rest_suffix hrun))
    exact .head (show ProcStep (m, ⟨P, r⟩) (mb, ⟨Pb, r'⟩) from hpart) (ih rfl)

/-- A run that is inside the part `t` came to its start. -/
theorem run_through {m m' : L → V} {P : List (Flight L V K)} {r t : List (Step L V K)}
    {p' : Proc L V K} (h : Relation.ReflTransGen ProcStep (m, ⟨P, r ++ t⟩) (m', p'))
    (hrest : ¬ t <:+ p'.rest) :
    ∃ m₁ P₁, Relation.ReflTransGen ProcStep (m, ⟨P, r ++ t⟩) (m₁, ⟨P₁, t⟩) ∧
      Relation.ReflTransGen ProcStep (m₁, ⟨P₁, t⟩) (m', p') := by
  generalize hinit : (m, (⟨P, r ++ t⟩ : Proc L V K)) = init at h
  induction h using Relation.ReflTransGen.head_induction_on generalizing m P r with
  | refl =>
    cases hinit
    exact absurd (List.suffix_append r t) hrest
  | @head a b hstep hrun ih =>
    subst hinit
    by_cases hr : r = []
    · subst hr
      exact ⟨m, P, .refl, .head hstep hrun⟩
    · obtain ⟨mb, Pb, rest⟩ := b
      -- one step cannot jump over the start of `t`
      have hsuffix : t <:+ rest := by
        obtain ⟨s, r₀, rfl⟩ := List.exists_cons_of_ne_nil hr
        rcases Proc.Steps.rest_eq hstep with heq | ⟨_, heq⟩
        · obtain rfl : s :: r₀ ++ t = rest := heq
          exact List.suffix_append _ _
        · obtain rfl : r₀ ++ t = rest := (List.cons.inj heq).2
          exact List.suffix_append _ _
      obtain ⟨r', rfl⟩ := hsuffix
      obtain ⟨m₁, P₁, hto, hfrom⟩ := ih rfl
      exact ⟨m₁, P₁, .head hstep hto, hfrom⟩

theorem run_frame {a b : (L → V) × Proc L V K} (h : Relation.ReflTransGen ProcStep a b)
    {s : Set L} (hs : ∀ x ∈ a.2.xfers, Disjoint x.dst s) : Set.EqOn b.1 a.1 s := by
  induction h using Relation.ReflTransGen.head_induction_on with
  | refl => exact fun _ _ => rfl
  | @head a c hstep _ ih =>
    have hnext : ∀ x ∈ c.2.xfers, Disjoint x.dst s := by
      intro x' hx'
      obtain ⟨x, hx, rfl | ⟨_, rfl⟩⟩ := Proc.Steps.xfers_of hstep x' hx'
      · exact hs x' hx
      · exact hs x hx
    exact (ih hnext).trans (Proc.Steps.frame hstep hs)

theorem run_after {m m' : L → V} {P P' : List (Flight L V K)} {r r' : List (Step L V K)}
    (h : Relation.ReflTransGen ProcStep (m, ⟨P, r⟩) (m', ⟨P', r'⟩)) :
    ∀ q ∈ after {p | p ∈ P'} r', ∃ p ∈ after {p | p ∈ P} r, q.Of p := by
  generalize hfin : (m', (⟨P', r'⟩ : Proc L V K)) = fin at h
  induction h generalizing m' P' r' with
  | refl =>
    cases hfin
    exact fun q hq => ⟨q, hq, .refl q⟩
  | @tail b c _ hstep ih =>
    subst hfin
    intro q hq
    obtain ⟨p, hp, hof⟩ := Proc.Steps.after hstep q hq
    obtain ⟨p', hp', hof'⟩ := ih rfl p hp
    exact ⟨p', hp', hof.trans hof'⟩

theorem mem_nil_eq_empty : {p : Flight L V K | p ∈ ([] : List (Flight L V K))} = ∅ := by simp

theorem Proc.safe_start {s : List (Step L V K)} (h : RaceFree ∅ s) : (⟨[], s⟩ : Proc L V K).Safe :=
  ⟨.nil, by rwa [mem_nil_eq_empty]⟩

theorem run_proc_done {m m' : L → V} {r : List (Step L V K)}
    (h : Relation.ReflTransGen ProcStep (m, ⟨[], r⟩) (m', ⟨[], []⟩)) (hfree : RaceFree ∅ r) :
    m' = Xfer.applyAll (stepXfers r) m := by
  have hsys : Relation.ReflTransGen SysStep (m, [⟨[], r⟩]) (m', [(⟨[], []⟩ : Proc L V K)]) :=
    h.lift (fun a => (a.1, [a.2])) fun a b hab => .step a.1 b.1 [] a.2 b.2 [] hab
  have hexec := run_done hsys ⟨by simpa using Proc.safe_start hfree, by simp⟩ (by simp)
  simpa [execAll, Proc.xfers, stepXfers] using hexec

/-- At the end of a part that leaves nothing in flight the memory is that of the
plain reading. -/
theorem run_part_done {m m' : L → V} {P' : List (Flight L V K)} {r t : List (Step L V K)}
    (h : Relation.ReflTransGen ProcStep (m, ⟨[], r ++ t⟩) (m', ⟨P', t⟩)) (hfree : RaceFree ∅ r)
    (hdone : after ∅ r = ∅) : P' = [] ∧ m' = Xfer.applyAll (stepXfers r) m := by
  have hpart : Relation.ReflTransGen ProcStep (m, ⟨[], r⟩) (m', ⟨P', []⟩) := run_part h
  have hP : P' = [] := by
    refine List.eq_nil_iff_forall_not_mem.mpr fun q hq => ?_
    obtain ⟨p, hp, -⟩ := run_after hpart q hq
    rw [mem_nil_eq_empty, hdone] at hp
    exact hp
  subst hP
  exact ⟨rfl, run_proc_done hpart hfree⟩

-- ------------------------------
-- Every system has a run
-- ------------------------------

theorem exists_run_pool (key : K) (fetch : Bool) (xs : List (Xfer L V)) (s : List (Step L V K))
    (m : L → V) :
    Relation.ReflTransGen ProcStep (m, ⟨flights key fetch xs, s⟩)
      (Xfer.applyAll xs m, ⟨[], s⟩) := by
  induction xs generalizing m with
  | nil => exact .refl
  | cons x xs ih =>
    have hread : ProcStep (m, ⟨flights key fetch (x :: xs), s⟩)
        (m, ⟨(⟨x, key, fetch, false⟩ : Flight L V K).hold m :: flights key fetch xs, s⟩) :=
      .read [] _ _ s rfl
    have hwrite : ProcStep
        (m, ⟨(⟨x, key, fetch, false⟩ : Flight L V K).hold m :: flights key fetch xs, s⟩)
        (x.apply m, ⟨flights key fetch xs, s⟩) := .write [] _ _ s rfl
    exact .head hread (.head hwrite (ih _))

theorem exists_run_part (r t : List (Step L V K)) (m : L → V) :
    Relation.ReflTransGen ProcStep (m, ⟨[], r ++ t⟩) (Xfer.applyAll (stepXfers r) m, ⟨[], t⟩) := by
  induction r generalizing m with
  | nil => exact .refl
  | cons step s ih =>
    cases step with
    | now x =>
      have hnow : ProcStep (m, ⟨[], .now x :: (s ++ t)⟩) (x.apply m, ⟨[], s ++ t⟩) := .now [] x _
      exact .head hnow (ih _)
    | issue key fetch xs =>
      have hissue : ProcStep (m, ⟨[], .issue key fetch xs :: (s ++ t)⟩)
          (m, ⟨flights key fetch xs, s ++ t⟩) := .issue [] key fetch xs _
      rw [stepXfers, List.flatMap_cons, Xfer.applyAll_append]
      exact .head hissue ((exists_run_pool key fetch xs _ m).trans (ih _))
    | wait full loc =>
      have hwait : ProcStep (m, ⟨[], .wait full loc :: (s ++ t)⟩) (m, ⟨[], s ++ t⟩) :=
        .wait [] full loc _ (by simp)
      exact .head hwait (ih m)

theorem exists_run_proc (s : List (Step L V K)) (m : L → V) :
    Relation.ReflTransGen ProcStep (m, ⟨[], s⟩) (Xfer.applyAll (stepXfers s) m, ⟨[], []⟩) := by
  have hrun := exists_run_part s [] m
  rwa [List.append_nil] at hrun

theorem exists_run_reads (P Q : List (Flight L V K)) (hQ : ∀ q ∈ Q, q.held = false)
    (s : List (Step L V K)) (m : L → V) :
    Relation.ReflTransGen ProcStep (m, ⟨P ++ Q, s⟩) (m, ⟨P ++ Q.map (·.hold m), s⟩) := by
  induction Q generalizing P with
  | nil => exact .refl
  | cons q Q ih =>
    obtain ⟨hq, hQ⟩ := List.forall_mem_cons.mp hQ
    have hrest := ih (P ++ [q.hold m]) hQ
    simp only [List.append_assoc, List.singleton_append] at hrest
    exact (Proc.Steps.read P q Q s hq).head hrest

/-- A program may come to its end with its last transfers read but not written. -/
theorem exists_run_held (r : List (Step L V K)) (key : K) (xs : List (Xfer L V))
    {full loc : K → Prop} (hfull : ¬ full key) (m : L → V) :
    Relation.ReflTransGen ProcStep (m, ⟨[], r ++ [.issue key false xs, .wait full loc]⟩)
      (Xfer.applyAll (stepXfers r) m,
        ⟨(flights key false xs).map (·.hold (Xfer.applyAll (stepXfers r) m)), []⟩) := by
  refine (exists_run_part r _ m).trans ((Proc.Steps.issue [] key false xs _).head ?_)
  have hunread : ∀ q ∈ flights key false xs, q.held = false := by
    intro q hq
    obtain ⟨x, -, rfl⟩ := List.mem_map.mp hq
    rfl
  refine (exists_run_reads [] _ hunread _ _).trans ((Proc.Steps.wait _ full loc [] ?_).head .refl)
  intro q hq
  obtain ⟨q', hq', rfl⟩ := List.mem_map.mp hq
  obtain ⟨x, -, rfl⟩ := List.mem_map.mp hq'
  exact ⟨hfull, fun _ => ⟨rfl, rfl⟩⟩

theorem exists_run_writes (Q : List (Flight L V K)) (hQ : ∀ q ∈ Q, q.held = true)
    (s : List (Step L V K)) (m : L → V) :
    Relation.ReflTransGen ProcStep (m, ⟨Q, s⟩) (Xfer.applyAll (Q.map Flight.x) m, ⟨[], s⟩) := by
  induction Q generalizing m with
  | nil => exact .refl
  | cons q Q ih =>
    obtain ⟨hq, hQ⟩ := List.forall_mem_cons.mp hQ
    exact (Proc.Steps.write [] q Q s hq).head (ih hQ _)

theorem exists_run (progs : List (List (Step L V K))) (m : L → V) :
    Relation.ReflTransGen SysStep (m, progs.map (⟨[], ·⟩))
      (Xfer.applyAll (progs.flatMap stepXfers) m, progs.map fun _ => ⟨[], []⟩) := by
  have hrun : ∀ (done : List (Proc L V K)) (progs : List (List (Step L V K))) (m : L → V),
      Relation.ReflTransGen SysStep (m, done ++ progs.map (⟨[], ·⟩))
        (Xfer.applyAll (progs.flatMap stepXfers) m, done ++ progs.map fun _ => ⟨[], []⟩) := by
    intro done progs
    induction progs generalizing done with
    | nil => exact fun m => .refl
    | cons s progs ih =>
      intro m
      have hone := (exists_run_proc s m).lift
        (fun a => (a.1, done ++ a.2 :: progs.map (⟨[], ·⟩))) fun a b hab =>
          SysStep.step a.1 b.1 done a.2 b.2 _ hab
      have hrest := ih (done ++ [⟨[], []⟩]) (Xfer.applyAll (stepXfers s) m)
      rw [List.append_assoc, List.append_assoc] at hrest
      rw [List.flatMap_cons, Xfer.applyAll_append]
      exact hone.trans hrest
  exact hrun [] progs m

end Lib
