import ArmciMpi.Transfer.Posted

/-!
# Accesses and waits of a process

An access is a transfer together with the process that asks for it, the one it is
directed to, and whether it may be left in flight with its sources still to be
read, as a nonblocking call leaves it. In between a process waits: after a wait at
the origin a nonblocking access is like a blocking one, after a full one it is
complete.

`Performs` says that a process carries out accesses and waits one after the other.
Nothing races among them if no access meets an earlier one that may still be in
flight (`Performs.safe`), and outside scratch memory they do what they ask for
(`Performs.effect_eqOn`).
-/

namespace ArmciMpi

open Lib Script

namespace Phases

/-- A transfer, the process that asks for it, the one it is directed to, and whether the
call is nonblocking. -/
structure Access where
  me : Nat
  proc : Nat
  transfer : Transfer
  posted : Bool

namespace Access

def sources (a : Access) : Set Loc := a.transfer.sources a.me a.proc

def targets (a : Access) : Set Loc := a.transfer.targets a.me a.proc

def ends (a : Access) : List (Loc × Loc) := a.transfer.ends a.me a.proc

def effect (a : Access) : List (Xfer Loc UInt8) := a.transfer.effect a.me a.proc

def Writes (a : Access) (x : Xfer Loc UInt8) : Prop := a.transfer.Writes a.me a.proc x

/-- Moves of the first access in flight do not concern the second one. -/
structure Clear (a b : Access) : Prop where
  reads : Disjoint a.targets b.sources
  writes : ∀ e ∈ a.ends, ∀ e' ∈ b.ends,
    Disjoint (block e.2 a.transfer.base.size) (block e'.2 b.transfer.base.size) ∨
      e.2 = e'.2 ∧ a.transfer.kind = .acc ∧ b.transfer.kind = .acc ∧
        a.transfer.base = b.transfer.base ∧ a.transfer.base.Whole

/-- The first access may be in flight when the second one is made: a nonblocking one, and
without end-to-end flushes a put or accumulate. The sources of a nonblocking one may still
have to be read. -/
structure Precedes (cfg : GlobalState) (a b : Access) : Prop where
  clear : a.posted = true ∨ cfg.endToEndFlush = false ∧ a.transfer.kind ≠ .get → a.Clear b
  sources : a.posted = true → Disjoint a.sources b.targets

section
variable {a b : Access} {x y : Xfer Loc UInt8}

theorem Clear.of_disjoint (hreads : Disjoint a.targets b.sources)
    (hwrites : Disjoint a.targets b.targets) : a.Clear b :=
  ⟨hreads, fun _ he _ he' => .inl
    (hwrites.mono (Transfer.ends_subset he).2 (Transfer.ends_subset he').2)⟩

theorem Clear.targets_disjoint (h : a.Clear b)
    (hacc : ¬ (a.transfer.kind = .acc ∧ b.transfer.kind = .acc)) :
    Disjoint a.targets b.targets := by
  refine Set.disjoint_left.mpr fun l hl hl' => ?_
  obtain ⟨e, he, hle⟩ := Transfer.mem_targets hl
  obtain ⟨e', he', hle'⟩ := Transfer.mem_targets hl'
  rcases h.writes e he e' he' with hdisj | ⟨-, hk, hk', -⟩
  · exact hdisj.notMem_of_mem_left hle hle'
  · exact hacc ⟨hk, hk'⟩

/-- Moves of accesses that are clear of each other can be exchanged: they write to
different places or add to the same integer. -/
theorem Clear.indep (h : a.Clear b) (hx : a.Writes x) (hy : b.Writes y)
    (hsrc : Disjoint x.src y.dst) (hdst : Disjoint x.dst y.src) : x.Indep y := by
  by_cases hacc : a.transfer.kind = .acc ∧ b.transfer.kind = .acc
  · obtain ⟨e, he, hxe⟩ := hx.acc hacc.1
    obtain ⟨e', he', hye⟩ := hy.acc hacc.2
    rcases h.writes e he e' he' with hdisj | ⟨heq, -, -, hbase, hwhole⟩
    · exact Xfer.indep_of_disjoint hdst hsrc (by rwa [hxe.dst, hye.dst])
    · rw [← hbase, ← heq] at hye
      exact ⟨hdst, hsrc, hxe.comm hwhole hye⟩
  · exact Xfer.indep_of_disjoint hdst hsrc ((h.targets_disjoint hacc).mono hx.dst hy.dst)

theorem effect_foot (hx : x ∈ a.effect) : x.src ⊆ a.sources ∧ x.dst ⊆ a.targets := by
  obtain ⟨e, he, rfl⟩ := List.mem_map.mp hx
  exact Transfer.ends_subset he

end

end Access

-- ------------------------------
-- Orders that are safe
-- ------------------------------

/-- What a process does with its memory and that of others: accesses, and waits for those
to some processes, in full or at the origin. -/
inductive Item
  | access (a : Access)
  | flush (full : Bool) (procs : Set Nat)

def Item.effect : Item → List (Xfer Loc UInt8)
  | access a => a.effect
  | flush .. => []

def Item.accesses : Item → List Access
  | access a => [a]
  | flush .. => []

/-- The access goes well with all that comes after it, until it is complete. -/
def Access.Guards (cfg : GlobalState) : Access → List Item → Prop
  | _, [] => True
  | a, .access b :: items => a.Precedes cfg b ∧ a.Guards cfg items
  | a, .flush full procs :: items =>
    (a.proc ∈ procs → full = false → { a with posted := false }.Guards cfg items) ∧
      (a.proc ∉ procs → a.Guards cfg items)

def Ordered (cfg : GlobalState) : List Item → Prop
  | [] => True
  | .access a :: items => a.Guards cfg items ∧ Ordered cfg items
  | .flush .. :: items => Ordered cfg items

-- ------------------------------
-- The calls of one process
-- ------------------------------

structure Flushes (env : Env) (full : Bool) (procs : Set Nat) (acts : List Act) : Prop where
  waits : ∀ step ∈ actSteps env.me acts, ∃ f l, step = .wait f l
  covers : ∀ proc ∈ procs, ∀ win, ∀ g : Nat, env.Live win → win.comm.rankOf proc = some g →
    ∀ op : Rma, op.On win g → ∃ f l, .wait f l ∈ actSteps env.me acts ∧
      if full = true ∨ env.cfg.endToEndFlush = true then f op else l op

/-- The actions carry out the items one after the other. Of a nonblocking access no more is
known than that it is served. -/
inductive Performs (env : Env) (arena : Set Int) : List Item → List Act → Prop
  | nil : Performs env arena [] []
  | skip {items a acts} (hnone : actSteps env.me a = []) (h : Performs env arena items acts) :
      Performs env arena items (a ++ acts)
  | access {proc t posted items a acts} (hp : t.Proper env proc arena)
      (hs : t.Serves env proc arena a) (hd : posted = false → t.Does env proc arena a)
      (h : Performs env arena items acts) :
      Performs env arena (.access ⟨env.me, proc, t, posted⟩ :: items) (a ++ acts)
  | flush {full procs items a acts} (hf : Flushes env full procs a)
      (h : Performs env arena items acts) :
      Performs env arena (.flush full procs :: items) (a ++ acts)

/-- A move of the access that is in flight; if the access is not a nonblocking one, its
source has been read, and it is not a get. -/
structure Access.Flies (env : Env) (arena : Set Int) (a : Access) (q : Flight Loc UInt8 Rma) :
    Prop where
  me : a.me = env.me
  proper : a.transfer.Proper env a.proc arena
  inFlight : a.transfer.InFlight env a.proc q
  read : a.posted = false → q.x.src = ∅ ∧ env.cfg.endToEndFlush = false ∧ a.transfer.kind ≠ .get

section
variable {env : Env} {arena : Set Int} {items items' : List Item} {acts acts' : List Act}
  {a b : Access} {p q : Flight Loc UInt8 Rma} {x : Xfer Loc UInt8} {full : Bool} {procs : Set Nat}

theorem Flushes.xfers (h : Flushes env full procs acts) : actXfers env.me acts = [] := by
  refine List.flatMap_eq_nil_iff.mpr fun step hstep => ?_
  obtain ⟨f, l, rfl⟩ := h.waits step hstep
  rfl

theorem Flushes.raceFree (h : Flushes env full procs acts) (T : Set (Flight Loc UInt8 Rma)) :
    RaceFree T (actSteps env.me acts) := by
  refine raceFree_of_indep (fun q _ x hx => ?_) ?_
  · rw [← actXfers, h.xfers] at hx
    cases hx
  · rw [← actXfers, h.xfers]
    exact .nil

theorem Access.Flies.of (h : a.Flies env arena p) (hof : q.Of p) : a.Flies env arena q := by
  refine ⟨h.me, h.proper, h.inFlight.of hof, fun hno => ?_⟩
  obtain ⟨hsrc, hrest⟩ := h.read hno
  obtain rfl | ⟨m, rfl⟩ := hof
  · exact ⟨hsrc, hrest⟩
  · exact ⟨rfl, hrest⟩

theorem Access.Flies.indep (h : a.Flies env arena q) (hprec : a.Precedes env.cfg b)
    (hxsrc : x.src ⊆ b.sources ∪ scratch env.me arena)
    (hxdst : x.dst ⊆ scratch env.me arena ∨ b.Writes x) : q.x.Indep x := by
  obtain ⟨me, proc, t, posted⟩ := a
  obtain ⟨rfl, hp, hfly, hread⟩ := h
  have hcl : Access.Clear ⟨env.me, proc, t, posted⟩ b := by
    refine hprec.clear ?_
    cases posted with
    | true => exact .inl rfl
    | false => exact .inr (hread rfl).2
  have hout : Disjoint q.x.dst (scratch env.me arena) :=
    disjoint_compl_left.mono_left (hfly.writes.dst.trans hp.targets_subset)
  have hdst : Disjoint q.x.dst x.src :=
    (Disjoint.union_right (hcl.reads.mono_left hfly.writes.dst) hout).mono_right hxsrc
  have hsrc : Disjoint q.x.src x.dst := by
    cases posted with
    | true =>
      rcases hxdst with hscratch | hx
      · exact (disjoint_compl_left.mono_left (hfly.src.trans hp.sources_subset)).mono_right hscratch
      · exact ((hprec.sources rfl).mono_left hfly.src).mono_right hx.dst
    | false =>
      rw [(hread rfl).1]
      exact Set.empty_disjoint _
  rcases hxdst with hscratch | hx
  · exact Xfer.indep_of_disjoint hdst hsrc (hout.mono_right hscratch)
  · exact hcl.indep hfly.writes hx hsrc hdst

theorem Access.Flies.waited (h : a.Flies env arena p)
    (hguard : a.Guards env.cfg (.flush full procs :: items)) (hf : Flushes env full procs acts)
    (hof : q.Of p)
    (hpass : ∀ f l, .wait f l ∈ actSteps env.me acts → q.Passes f l) :
    ∃ b : Access, b.Flies env arena q ∧ b.Guards env.cfg items := by
  have hq := h.of hof
  by_cases hin : a.proc ∈ procs
  · obtain ⟨win, g, hon, hrank, hlive⟩ := hq.inFlight.on
    obtain ⟨f, l, hmem, hcovers⟩ := hf.covers a.proc hin win g hlive hrank q.key hon
    obtain ⟨hnot, hloc⟩ := hpass f l hmem
    have hlocal : ¬ (full = true ∨ env.cfg.endToEndFlush = true) := fun hyes => by
      rw [if_pos hyes] at hcovers
      exact hnot hcovers
    rw [if_neg hlocal] at hcovers
    rw [not_or, Bool.not_eq_true, Bool.not_eq_true] at hlocal
    obtain ⟨hfetch, hheld⟩ := hloc hcovers
    refine ⟨{ a with posted := false }, ⟨hq.me, hq.proper, hq.inFlight, fun _ => ?_⟩,
      hguard.1 hin hlocal.1⟩
    refine ⟨hq.inFlight.held hheld, hlocal.2, fun hget => ?_⟩
    rw [hq.inFlight.fetch, hget] at hfetch
    cases hfetch
  · exact ⟨a, hq, hguard.2 hin⟩

theorem Performs.append (h : Performs env arena items acts) (h' : Performs env arena items' acts') :
    Performs env arena (items ++ items') (acts ++ acts') := by
  induction h with
  | nil => exact h'
  | skip hnone _ ih =>
    rw [List.append_assoc]
    exact .skip hnone ih
  | access hp hs hd _ ih =>
    rw [List.append_assoc]
    exact .access hp hs hd ih
  | flush hf _ ih =>
    rw [List.append_assoc]
    exact .flush hf ih

theorem performs_of_carries {proc : Nat} {ts : List Transfer} (h : Carries env proc arena ts acts) :
    Performs env arena (ts.map fun t => .access ⟨env.me, proc, t, false⟩) acts := by
  induction h with
  | nil => exact .nil
  | cons hp hd _ ih => exact .access hp (hd.serves hp) (fun _ => hd) ih

theorem Performs.foot (h : Performs env arena items acts) {x : Xfer Loc UInt8}
    (hx : x ∈ actXfers env.me acts) :
    ∃ a ∈ items.flatMap Item.accesses, x.src ⊆ a.sources ∪ scratch env.me arena ∧
      (x.dst ⊆ scratch env.me arena ∨ a.Writes x) := by
  induction h with
  | nil => cases hx
  | skip hnone _ ih =>
    rw [actXfers, actSteps_append, hnone] at hx
    exact ih hx
  | access hp hs hd _ ih =>
    rw [actXfers_append] at hx
    rcases List.mem_append.mp hx with hx | hx
    · exact ⟨_, List.mem_cons_self, hs.foot _ hx⟩
    · obtain ⟨b, hb, hfoot⟩ := ih hx
      exact ⟨b, List.mem_cons_of_mem _ hb, hfoot⟩
  | flush hf _ ih =>
    rw [actXfers_append, hf.xfers] at hx
    exact ih hx

theorem Performs.safe (h : Performs env arena items acts) (hord : Ordered env.cfg items)
    {T : Set (Flight Loc UInt8 Rma)}
    (hT : ∀ q ∈ T, ∃ a : Access, a.Flies env arena q ∧ a.Guards env.cfg items) :
    RaceFree T (actSteps env.me acts) ∧
      ∀ q ∈ after T (actSteps env.me acts), ∃ a : Access, a.Flies env arena q := by
  induction h generalizing T with
  | nil => exact ⟨trivial, fun q hq => (hT q hq).imp fun _ h => h.1⟩
  | skip hnone _ ih =>
    rw [actSteps_append, hnone]
    exact ih hord hT
  | @access proc t posted items a acts hp hs hd hrest ih =>
    rw [actSteps_append, raceFree_append, after_append, and_assoc]
    refine ⟨?_, ih hord.2 fun q hq => ?_⟩
    · have hunion := hs.free.union (T := T) fun q hq x hx => by
        obtain ⟨b, hfly, hguard⟩ := hT q hq
        exact hfly.indep hguard.1 (hs.foot x hx).1 (hs.foot x hx).2
      rwa [Set.empty_union] at hunion
    · rcases mem_after hq with ⟨p, hp, hof⟩ | hq
      · obtain ⟨b, hfly, hguard⟩ := hT p hp
        exact ⟨b, hfly.of hof, hguard.2⟩
      · refine ⟨_, ⟨rfl, hp, hs.flight q hq, fun hno => ?_⟩, hord.1⟩
        refine ⟨((hd hno).flight hq).1, Bool.eq_false_iff.mpr fun hflush => ?_, fun hget => ?_⟩
        · rw [(hd hno).after_empty hflush] at hq
          exact hq.elim
        · rw [(hd hno).after_get hget] at hq
          exact hq.elim
  | flush hf hrest ih =>
    rw [actSteps_append, raceFree_append, after_append, and_assoc]
    refine ⟨hf.raceFree T, ih hord fun q hq => ?_⟩
    obtain ⟨⟨p, hp, hof⟩, hpass⟩ := after_waits_passes hf.waits hq
    obtain ⟨b, hfly, hguard⟩ := hT p hp
    exact hfly.waited hguard hf hof hpass

theorem Performs.outside (h : Performs env arena items acts) :
    ∀ a ∈ items.flatMap Item.accesses,
      a.sources ⊆ (scratch env.me arena)ᶜ ∧ a.targets ⊆ (scratch env.me arena)ᶜ := by
  induction h with
  | nil => exact fun a ha => absurd ha List.not_mem_nil
  | skip _ _ ih => exact ih
  | access hp _ _ _ ih =>
    exact List.forall_mem_cons.mpr ⟨⟨hp.sources_subset, hp.targets_subset⟩, ih⟩
  | flush _ _ ih => exact ih

theorem mem_effect (hx : x ∈ items.flatMap Item.effect) :
    ∃ a ∈ items.flatMap Item.accesses, x ∈ a.effect := by
  obtain ⟨item, hitem, hx⟩ := List.mem_flatMap.mp hx
  cases item with
  | access a => exact ⟨a, List.mem_flatMap.mpr ⟨_, hitem, List.mem_singleton_self a⟩, hx⟩
  | flush => cases hx

theorem Performs.effect_eqOn (h : Performs env arena items acts) (m : Mem) :
    Set.EqOn (Xfer.applyAll (actXfers env.me acts) m)
      (Xfer.applyAll (items.flatMap Item.effect) m) (scratch env.me arena)ᶜ := by
  induction h generalizing m with
  | nil => exact fun _ _ => rfl
  | skip hnone _ ih =>
    rw [actXfers, actSteps_append, hnone]
    exact ih m
  | access hp hs hd hrest ih =>
    rw [actXfers_append, List.flatMap_cons, Xfer.applyAll_append, Xfer.applyAll_append]
    refine (ih _).trans (Xfer.applyAll_congr (fun x hx => ?_) (hs.effect m))
    obtain ⟨b, hb, hx⟩ := mem_effect hx
    obtain ⟨hsrc, hdst⟩ := hrest.outside b hb
    exact ⟨(Access.effect_foot hx).1.trans hsrc, (Access.effect_foot hx).2.trans hdst⟩
  | flush hf hrest ih =>
    rw [actXfers_append, hf.xfers]
    exact ih m

end

end Phases

end ArmciMpi
