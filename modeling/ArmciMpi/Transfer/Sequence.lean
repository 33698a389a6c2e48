import ArmciMpi.Transfer.Outcome

/-!
# Transfers one after the other

A process that works on one transfer may have moves of earlier ones in flight,
with their sources read. `Clear` says when this does no harm: the earlier
targets are not read, and where both transfers write they add numbers to the
same elements. Then the parts of a program that carry out the transfers can be
put together: nothing races, and outside scratch memory the program does what
was asked, in program order (`Carries.free`, `Carries.effect_eqOn`). With full
flushes nothing is in flight between the parts, and no condition is needed.
-/

namespace ArmciMpi

open Lib Script

def BaseType.Whole : BaseType → Prop
  | .byte | .int | .long => True
  | .float | .double => False

theorem BaseType.sum_left_comm {b : BaseType} (h : b.Whole) (x y d : List UInt8) :
    b.sum x (b.sum y d) = b.sum y (b.sum x d) := by
  cases b <;> first | exact h.elim | skip
  all_goals
    simp only [sum, leVal_leBytes]
    refine leBytes_congr ?_
    rw [Nat.add_mod_mod, Nat.add_mod_mod, Nat.add_left_comm]

/-- The transfer adds a number of the type to the one at the target. -/
structure Adds (b : BaseType) (target : Loc) (x : Xfer Loc UInt8) : Prop where
  dst : x.dst = block target b.size
  run : ∀ a, ∃ s a', ∀ m, x.run a m = (move b.sum b.size s target).run a' m

theorem adds_move (b : BaseType) (s target : Loc) : Adds b target (move b.sum b.size s target) :=
  ⟨rfl, fun a => ⟨s, a, fun _ => rfl⟩⟩

theorem Adds.hold {b : BaseType} {target : Loc} {x : Xfer Loc UInt8} (h : Adds b target x)
    (a : Mem) : Adds b target (x.hold a) := ⟨h.dst, fun _ => h.run a⟩

theorem Adds.comm {b : BaseType} {target : Loc} {x y : Xfer Loc UInt8} (hb : b.Whole)
    (hx : Adds b target x) (hy : Adds b target y) (a a' m : Mem) :
    x.run a (y.run a' m) = y.run a' (x.run a m) := by
  obtain ⟨s, c, hx⟩ := hx.run a
  obtain ⟨s', c', hy⟩ := hy.run a'
  rw [hx, hy, hx, hy]
  exact move_comm b.keepsLength_sum (fun _ _ _ _ _ _ => b.sum_left_comm hb _ _ _) s s' target c c' m

namespace Transfer

def sources (me proc : Nat) (t : Transfer) : Set Loc :=
  {l | ∃ s ∈ t.segs, l ∈ block (t.kind.ends me proc s).1 t.bytes}

def targets (me proc : Nat) (t : Transfer) : Set Loc :=
  {l | ∃ s ∈ t.segs, l ∈ block (t.kind.ends me proc s).2 t.bytes}

/-- Moves of the first transfer in flight do not concern the second one. -/
structure Clear (me me' proc : Nat) (t t' : Transfer) : Prop where
  reads : Disjoint (t.targets me proc) (t'.sources me' proc)
  writes : ∀ e ∈ t.ends me proc, ∀ e' ∈ t'.ends me' proc,
    Disjoint (block e.2 t.base.size) (block e'.2 t'.base.size) ∨
      e.2 = e'.2 ∧ t.kind = .acc ∧ t'.kind = .acc ∧ t.base = t'.base ∧ t.base.Whole

structure Writes (me proc : Nat) (t : Transfer) (x : Xfer Loc UInt8) : Prop where
  dst : x.dst ⊆ t.targets me proc
  acc : t.kind = .acc → ∃ e ∈ t.ends me proc, Adds t.base e.2 x

section
variable {me me' proc : Nat} {t t' : Transfer}

theorem ends_subset {e : Loc × Loc} (he : e ∈ t.ends me proc) :
    block e.1 t.base.size ⊆ t.sources me proc ∧ block e.2 t.base.size ⊆ t.targets me proc := by
  obtain ⟨s, hs, j, hj, rfl⟩ := mem_elems.mp he
  exact ⟨fun l hl => ⟨s, hs, shift_subset hj _ hl⟩, fun l hl => ⟨s, hs, shift_subset hj _ hl⟩⟩

theorem mem_targets {l : Loc} (hl : l ∈ t.targets me proc) :
    ∃ e ∈ t.ends me proc, l ∈ block e.2 t.base.size := by
  obtain ⟨s, hs, hl⟩ := hl
  obtain ⟨j, hj, hl⟩ := mem_block_elem t.base.size_pos hl
  exact ⟨_, mem_elems.mpr ⟨s, hs, j, hj, rfl⟩, hl⟩

theorem Clear.of_disjoint (hreads : Disjoint (t.targets me proc) (t'.sources me' proc))
    (hwrites : Disjoint (t.targets me proc) (t'.targets me' proc)) : t.Clear me me' proc t' :=
  ⟨hreads, fun _ he _ he' => .inl (hwrites.mono (ends_subset he).2 (ends_subset he').2)⟩

theorem Clear.targets_disjoint (h : t.Clear me me' proc t') (hacc : ¬ (t.kind = .acc ∧ t'.kind = .acc)) :
    Disjoint (t.targets me proc) (t'.targets me' proc) := by
  refine Set.disjoint_left.mpr fun l hl hl' => ?_
  obtain ⟨e, he, hle⟩ := mem_targets hl
  obtain ⟨e', he', hle'⟩ := mem_targets hl'
  rcases h.writes e he e' he' with hdisj | ⟨-, hk, hk', -⟩
  · exact hdisj.notMem_of_mem_left hle hle'
  · exact hacc ⟨hk, hk'⟩

theorem Clear.indep (h : t.Clear me me' proc t') {x y : Xfer Loc UInt8} (hx : t.Writes me proc x)
    (hy : t'.Writes me' proc y) (hsrc : Disjoint x.src y.dst) (hdst : Disjoint x.dst y.src) :
    x.Indep y := by
  by_cases hacc : t.kind = .acc ∧ t'.kind = .acc
  · obtain ⟨e, he, hxe⟩ := hx.acc hacc.1
    obtain ⟨e', he', hye⟩ := hy.acc hacc.2
    rcases h.writes e he e' he' with hdisj | ⟨heq, -, -, hbase, hwhole⟩
    · exact Xfer.indep_of_disjoint hdst hsrc (by rwa [hxe.dst, hye.dst])
    · rw [← hbase, ← heq] at hye
      exact ⟨hdst, hsrc, hxe.comm hwhole hye⟩
  · exact Xfer.indep_of_disjoint hdst hsrc ((h.targets_disjoint hacc).mono hx.dst hy.dst)

end

section
variable {env : Env} {proc : Nat} {arena : Set Int} {t : Transfer} {acts : List Act}

theorem Proper.sources_subset (hp : t.Proper env proc arena) :
    t.sources env.me proc ⊆ (scratch env.me arena)ᶜ := by
  rintro l ⟨s, hs, hl⟩
  cases hk : t.kind with
  | put | acc =>
    rw [hk] at hl
    exact hp.user s hs hl
  | get =>
    rw [hk] at hl
    exact hp.outside s hs hl

theorem Proper.targets_subset (hp : t.Proper env proc arena) :
    t.targets env.me proc ⊆ (scratch env.me arena)ᶜ := by
  rintro l ⟨s, hs, hl⟩
  cases hk : t.kind with
  | put | acc =>
    rw [hk] at hl
    exact hp.outside s hs hl
  | get =>
    rw [hk] at hl
    exact hp.user s hs hl

theorem mem_sent {segs : List Seg} (hsegs : segs.map Seg.asked = t.segs) (hkind : t.kind ≠ .get)
    {e : Loc × Loc}
    (he : e ∈ ((segs.map Seg.sent).flatMap (segPairs t.base.size t.count)).map
      (t.kind.ends env.me proc)) :
    ∃ s ∈ segs, ∃ j < t.count, e.1 = Loc.shift (env.me, s.buf) (j * t.base.size) ∧
      ∃ e' ∈ t.ends env.me proc, e'.2 = e.2 := by
  obtain ⟨seg, hseg, j, hj, rfl⟩ := mem_elems.mp he
  obtain ⟨s, hs, rfl⟩ := List.mem_map.mp hseg
  refine ⟨s, hs, j, hj, by rw [RmaKind.ends_send hkind]; rfl, _, mem_elems.mpr
    ⟨s.asked, hsegs ▸ List.mem_map_of_mem hs, j, hj, rfl⟩, ?_⟩
  simp only [RmaKind.ends_send hkind, Seg.asked, Seg.sent]

theorem writes_move {e : Loc × Loc} (he : e ∈ t.ends env.me proc) (s : Loc) :
    t.Writes env.me proc (move (t.kind.fn t.base) t.base.size s e.2) where
  dst := (ends_subset he).2
  acc := fun hk => ⟨e, he, by rw [hk]; exact adds_move _ _ _⟩

theorem Writes.hold {x : Xfer Loc UInt8} (h : t.Writes env.me proc x) (a : Mem) :
    t.Writes env.me proc (x.hold a) where
  dst := h.dst
  acc := fun hk => by
    obtain ⟨e, he, hadds⟩ := h.acc hk
    exact ⟨e, he, hadds.hold a⟩

theorem Does.flight (h : t.Does env proc arena acts) {q : Flight Loc UInt8 Rma}
    (hq : q ∈ after ∅ (actSteps env.me acts)) : q.x.src = ∅ ∧ t.Writes env.me proc q.x := by
  cases h with
  | send segs hsegs hkind htemps hcall =>
    obtain ⟨-, e, he, a, hqx⟩ := hcall.after_held hq
    obtain ⟨s, -, j, -, -, e', he', heq⟩ := mem_sent hsegs hkind he
    rw [hqx, ← heq]
    exact ⟨rfl, (writes_move he' e.1).hold a⟩
  | get segs hsegs hkind hplace hbufs htemps hcall =>
    rw [hcall.after_empty] at hq
    exact hq.elim
  | copy => exact hq.elim

theorem SendCall.foot {segs : List Seg} (hsegs : segs.map Seg.asked = t.segs) (hkind : t.kind ≠ .get)
    (h : SendCall env t.kind t.base t.count proc arena t.fill segs acts) {x : Xfer Loc UInt8}
    (hx : x ∈ actXfers env.me acts) :
    x.src ⊆ t.sources env.me proc ∪ scratch env.me arena ∧
      (x.dst ⊆ scratch env.me arena ∨ t.Writes env.me proc x) := by
  have huser : ∀ s ∈ segs, block (env.me, s.user) t.bytes ⊆ t.sources env.me proc := by
    intro s hs l hl
    refine ⟨s.asked, hsegs ▸ List.mem_map_of_mem hs, ?_⟩
    rwa [RmaKind.ends_send hkind]
  obtain ⟨a₁, hst, hxs⟩ := h.xfers
  rw [hxs] at hx
  rcases List.mem_append.mp hx with hx | hx
  · obtain ⟨hdst, hsrc⟩ := hst.foot x hx
    refine ⟨fun l hl => .inl ?_, .inl hdst⟩
    obtain ⟨s, hs, hl⟩ := hsrc hl
    exact huser s hs hl
  · obtain ⟨e, he, rfl⟩ := List.mem_map.mp hx
    obtain ⟨s, hs, j, hj, hsrc, e', he', heq⟩ := mem_sent hsegs hkind he
    refine ⟨?_, .inr (heq ▸ writes_move he' e.1)⟩
    have hin : block e.1 t.base.size ⊆ block (env.me, s.buf) t.bytes :=
      hsrc ▸ shift_subset hj _
    rcases hst.place s hs with hbuf | hbuf
    · rw [hbuf] at hin
      exact fun l hl => .inl (huser s hs (hin hl))
    · exact fun l hl => .inr (hbuf (hin hl))

theorem GetCall.foot {segs : List Seg} (hp : t.Proper env proc arena)
    (hsegs : segs.map Seg.asked = t.segs) (hkind : t.kind = .get)
    (hplace : ∀ s ∈ segs, s.buf = s.user ∨ block (env.me, s.buf) t.count ⊆ scratch env.me arena)
    (h : GetCall env t.count proc segs acts) {x : Xfer Loc UInt8} (hx : x ∈ actXfers env.me acts) :
    x.src ⊆ t.sources env.me proc ∪ scratch env.me arena ∧
      (x.dst ⊆ scratch env.me arena ∨ t.Writes env.me proc x) := by
  have hbytes := bytes_byte (hp.base_get (by rw [hkind]; decide))
  have huser : ∀ s ∈ segs, block (env.me, s.user) t.count ⊆ t.targets env.me proc := by
    intro s hs l hl
    refine ⟨s.asked, hsegs ▸ List.mem_map_of_mem hs, ?_⟩
    rwa [hkind, hbytes]
  have hremote : ∀ s ∈ segs, block (proc, s.rem) t.count ⊆ t.sources env.me proc := by
    intro s hs l hl
    refine ⟨s.asked, hsegs ▸ List.mem_map_of_mem hs, ?_⟩
    rwa [hkind, hbytes]
  have hwrites : ∀ {x : Xfer Loc UInt8}, x.dst ⊆ t.targets env.me proc → t.Writes env.me proc x :=
    fun hdst => ⟨hdst, fun hacc => by rw [hkind] at hacc; cases hacc⟩
  rw [h.xfers] at hx
  rcases List.mem_append.mp hx with hx | hx
  · obtain ⟨e, he, rfl⟩ := List.mem_map.mp hx
    obtain ⟨seg, hseg, j, hj, rfl⟩ := mem_elems.mp he
    obtain ⟨s, hs, rfl⟩ := List.mem_map.mp hseg
    have hin : ∀ l : Loc, block (Loc.shift l (j * 1)) 1 ⊆ block l t.count :=
      fun l => (shift_subset hj 1).trans (by rw [Nat.mul_one])
    refine ⟨fun l hl => .inl (hremote s hs (hin _ hl)), ?_⟩
    rcases hplace s hs with hbuf | hbuf
    · refine .inr (hwrites fun l hl => huser s hs ?_)
      rw [← hbuf]
      exact hin (env.me, s.buf) hl
    · exact .inl fun l hl => hbuf (hin (env.me, s.buf) hl)
  · obtain ⟨e, he, rfl⟩ := List.mem_map.mp hx
    obtain ⟨s, hs, rfl⟩ := List.mem_map.mp he
    obtain ⟨hs, hne⟩ := List.mem_filter.mp hs
    have hin := (hplace s hs).resolve_left (of_decide_eq_true hne)
    exact ⟨fun l hl => .inr (hin hl), .inr (hwrites (huser s hs))⟩

theorem Does.foot (h : t.Does env proc arena acts) (hp : t.Proper env proc arena)
    {x : Xfer Loc UInt8} (hx : x ∈ actXfers env.me acts) :
    x.src ⊆ t.sources env.me proc ∪ scratch env.me arena ∧
      (x.dst ⊆ scratch env.me arena ∨ t.Writes env.me proc x) := by
  cases h with
  | send segs hsegs hkind htemps hcall => exact SendCall.foot hsegs hkind hcall hx
  | get segs hsegs hkind hplace hbufs htemps hcall => exact GetCall.foot hp hsegs hkind hplace hcall hx
  | copy seg hsegs hkind hfill hself =>
    subst hself
    obtain rfl := List.mem_singleton.mp hx
    have hbytes := bytes_byte (hp.base_get hkind)
    have hends : t.kind.ends env.me env.me seg =
        ((env.me, (t.kind.ends env.me env.me seg).1.2), (env.me, (t.kind.ends env.me env.me seg).2.2)) := by
      cases t.kind <;> rfl
    have hmem : seg ∈ t.segs := hsegs ▸ List.mem_cons_self
    refine ⟨fun l hl => .inl ⟨seg, hmem, ?_⟩, .inr ⟨fun l hl => ⟨seg, hmem, ?_⟩, fun hacc =>
      absurd hacc hkind⟩⟩
    · rw [hends, hbytes]
      exact hl
    · rw [hends, hbytes]
      exact hl

/-- Moves in flight are independent of what is done for a transfer they do not
concern. -/
theorem Does.indep {t' : Transfer} {acts' : List Act} (h : t.Does env proc arena acts)
    (h' : t'.Does env proc arena acts') (hp : t.Proper env proc arena)
    (hp' : t'.Proper env proc arena) (hclear : t.Clear env.me env.me proc t')
    {q : Flight Loc UInt8 Rma} (hq : q ∈ after ∅ (actSteps env.me acts)) {x : Xfer Loc UInt8}
    (hx : x ∈ actXfers env.me acts') : q.x.Indep x := by
  obtain ⟨hsrc, hwrites⟩ := h.flight hq
  obtain ⟨hxsrc, hxdst⟩ := h'.foot hp' hx
  have hout : Disjoint q.x.dst (scratch env.me arena) :=
    disjoint_compl_left.mono_left (hwrites.dst.trans hp.targets_subset)
  have hread : Disjoint q.x.dst x.src :=
    (Disjoint.union_right (hclear.reads.mono_left hwrites.dst) hout).mono_right hxsrc
  have hnone : Disjoint q.x.src x.dst := hsrc ▸ Set.empty_disjoint _
  rcases hxdst with hscratch | hx
  · exact Xfer.indep_of_disjoint hread hnone (hout.mono_right hscratch)
  · exact hclear.indep hwrites hx hnone hread

end

end Transfer

-- ------------------------------
-- Programs
-- ------------------------------

def effects (me proc : Nat) (ts : List Transfer) : List (Xfer Loc UInt8) :=
  ts.flatMap (Transfer.effect me proc)

inductive Carries (env : Env) (proc : Nat) (arena : Set Int) : List Transfer → List Act → Prop
  | nil : Carries env proc arena [] []
  | cons {t ts a acts} (hp : t.Proper env proc arena) (hd : t.Does env proc arena a)
      (h : Carries env proc arena ts acts) : Carries env proc arena (t :: ts) (a ++ acts)

namespace Carries

variable {env : Env} {proc : Nat} {arena : Set Int} {ts ts' : List Transfer}
  {acts acts' : List Act}

theorem append (h : Carries env proc arena ts acts) (h' : Carries env proc arena ts' acts') :
    Carries env proc arena (ts ++ ts') (acts ++ acts') := by
  induction h with
  | nil => exact h'
  | cons hp hd _ ih =>
    rw [List.append_assoc]
    exact .cons hp hd ih

theorem one {t : Transfer} (hp : t.Proper env proc arena) (hd : t.Does env proc arena acts) :
    Carries env proc arena [t] acts := by
  have h := Carries.cons hp hd .nil
  rwa [List.append_nil] at h

theorem proper (h : Carries env proc arena ts acts) : ∀ t ∈ ts, t.Proper env proc arena := by
  induction h with
  | nil => exact fun t ht => absurd ht List.not_mem_nil
  | cons hp _ _ ih => exact List.forall_mem_cons.mpr ⟨hp, ih⟩

theorem mem_part (h : Carries env proc arena ts acts) {a : Act} (ha : a ∈ acts) :
    ∃ t ∈ ts, ∃ part, t.Does env proc arena part ∧ a ∈ part := by
  induction h with
  | nil => cases ha
  | @cons t ts part acts hp hd _ ih =>
    rcases List.mem_append.mp ha with ha | ha
    · exact ⟨t, List.mem_cons_self, part, hd, ha⟩
    · obtain ⟨t', ht', h'⟩ := ih ha
      exact ⟨t', List.mem_cons_of_mem t ht', h'⟩

theorem mem_xfers (h : Carries env proc arena ts acts) {x : Xfer Loc UInt8}
    (hx : x ∈ actXfers env.me acts) :
    ∃ t ∈ ts, ∃ a, t.Does env proc arena a ∧ x ∈ actXfers env.me a := by
  obtain ⟨step, hstep, hx⟩ := List.mem_flatMap.mp hx
  obtain ⟨a, ha, hstep⟩ := List.mem_flatMap.mp hstep
  obtain ⟨t, ht, part, hd, ha⟩ := h.mem_part ha
  exact ⟨t, ht, part, hd, List.mem_flatMap.mpr ⟨step, List.mem_flatMap.mpr ⟨a, ha, hstep⟩, hx⟩⟩

theorem free (h : Carries env proc arena ts acts)
    (hclear : ts.Pairwise (Transfer.Clear env.me env.me proc)) :
    RaceFree ∅ (actSteps env.me acts) := by
  induction h with
  | nil => trivial
  | @cons t ts a acts hp hd hrest ih =>
    obtain ⟨hfirst, hclear⟩ := List.pairwise_cons.mp hclear
    rw [actSteps_append, raceFree_append]
    refine ⟨hd.free hp, ?_⟩
    have hunion := (ih hclear).union (T := after ∅ (actSteps env.me a)) fun q hq x hx => by
      obtain ⟨t', ht', a', hd', hx'⟩ := hrest.mem_xfers hx
      exact hd.indep hd' hp (hrest.proper t' ht') (hfirst t' ht') hq hx'
    rwa [Set.empty_union] at hunion

theorem flushed (h : Carries env proc arena ts acts) (hflush : env.cfg.endToEndFlush = true) :
    RaceFree ∅ (actSteps env.me acts) ∧ after ∅ (actSteps env.me acts) = ∅ := by
  induction h with
  | nil => exact ⟨trivial, rfl⟩
  | cons hp hd _ ih =>
    rw [actSteps_append, raceFree_append, after_append, hd.after_empty hflush]
    exact ⟨⟨hd.free hp, ih.1⟩, ih.2⟩

end Carries

section
variable {env : Env} {proc : Nat} {arena : Set Int} {ts : List Transfer} {acts : List Act}

theorem effects_cons (me proc : Nat) (t : Transfer) (ts : List Transfer) (m : Mem) :
    Xfer.applyAll (effects me proc (t :: ts)) m =
      Xfer.applyAll (effects me proc ts) (Xfer.applyAll (t.effect me proc) m) := by
  rw [effects, List.flatMap_cons, Xfer.applyAll_append]
  rfl

theorem effects_congr (hp : ∀ t ∈ ts, t.Proper env proc arena) {m m' : Mem}
    (h : Set.EqOn m m' (scratch env.me arena)ᶜ) :
    Set.EqOn (Xfer.applyAll (effects env.me proc ts) m) (Xfer.applyAll (effects env.me proc ts) m')
      (scratch env.me arena)ᶜ := by
  induction ts generalizing m m' with
  | nil => exact h
  | cons t ts ih =>
    obtain ⟨hfirst, hrest⟩ := List.forall_mem_cons.mp hp
    rw [effects_cons, effects_cons]
    exact ih hrest (hfirst.effect_congr h)

theorem Carries.effect_eqOn (h : Carries env proc arena ts acts) (m : Mem) :
    Set.EqOn (Xfer.applyAll (actXfers env.me acts) m) (Xfer.applyAll (effects env.me proc ts) m)
      (scratch env.me arena)ᶜ := by
  induction h generalizing m with
  | nil => exact fun _ _ => rfl
  | cons hp hd hrest ih =>
    rw [actXfers_append, Xfer.applyAll_append, effects_cons]
    exact (ih _).trans (effects_congr hrest.proper (hd.effect_eqOn hp m))

end

-- ------------------------------
-- What was asked for
-- ------------------------------

structure Transfer.Apart (me proc : Nat) (t t' : Transfer) : Prop where
  writes : Disjoint (t.targets me proc) (t'.targets me proc)
  reads : Disjoint (t.targets me proc) (t'.sources me proc)
  read : Disjoint (t.sources me proc) (t'.targets me proc)

theorem Transfer.Apart.clear {me proc : Nat} {t t' : Transfer} (h : t.Apart me proc t') :
    t.Clear me me proc t' := .of_disjoint h.reads h.writes

theorem Transfer.effect_frame {me proc : Nat} {t : Transfer} {s : Set Loc}
    (h : Disjoint (t.targets me proc) s) (m : Mem) :
    Set.EqOn (Xfer.applyAll (t.effect me proc) m) m s :=
  moveAll_frame (fun _ he => h.mono_left (ends_subset he).2) m

theorem effects_frame {me proc : Nat} {ts : List Transfer} {s : Set Loc}
    (h : ∀ t ∈ ts, Disjoint (t.targets me proc) s) (m : Mem) :
    Set.EqOn (Xfer.applyAll (effects me proc ts) m) m s := by
  induction ts generalizing m with
  | nil => exact fun _ _ => rfl
  | cons t ts ih =>
    obtain ⟨hfirst, hrest⟩ := List.forall_mem_cons.mp h
    rw [effects_cons]
    exact (ih hrest _).trans (Transfer.effect_frame hfirst m)

theorem Transfer.Proper.effect_bytes {env : Env} {proc : Nat} {arena : Set Int} {t : Transfer}
    (hp : t.Proper env proc arena) {e : Loc × Loc} (he : e ∈ t.ends env.me proc) (m : Mem) :
    bytesAt (Xfer.applyAll (t.effect env.me proc) m) e.2 t.base.size =
      t.kind.fn t.base (t.fill (bytesAt m e.1 t.base.size)) (bytesAt m e.2 t.base.size) :=
  moveAll_bytes (fun x _ hx hy => t.kind.keepsLength_fn t.base _ _ (hp.fill_length x hx) hy)
    hp.spread.elems m he

theorem effects_bytes {env : Env} {proc : Nat} {arena : Set Int} {ts : List Transfer}
    (hp : ∀ t ∈ ts, t.Proper env proc arena) (hapart : ts.Pairwise (Transfer.Apart env.me proc))
    {t : Transfer} (ht : t ∈ ts) {e : Loc × Loc} (he : e ∈ t.ends env.me proc) (m : Mem) :
    bytesAt (Xfer.applyAll (effects env.me proc ts) m) e.2 t.base.size =
      t.kind.fn t.base (t.fill (bytesAt m e.1 t.base.size)) (bytesAt m e.2 t.base.size) := by
  obtain ⟨hsrc, htgt⟩ := Transfer.ends_subset he
  induction ts generalizing m with
  | nil => cases ht
  | cons t₀ ts ih =>
    obtain ⟨hfirst, hrest⟩ := List.pairwise_cons.mp hapart
    rw [effects_cons]
    rcases List.mem_cons.mp ht with rfl | ht
    · rw [bytesAt_congr (effects_frame (fun t' ht' => (hfirst t' ht').writes.symm.mono_right htgt) _)]
      exact (hp t List.mem_cons_self).effect_bytes he m
    · rw [ih (fun t' ht' => hp t' (List.mem_cons_of_mem t₀ ht')) hrest ht,
        bytesAt_congr (Transfer.effect_frame ((hfirst t ht).reads.mono_right hsrc) m),
        bytesAt_congr (Transfer.effect_frame ((hfirst t ht).writes.mono_right htgt) m)]

end ArmciMpi
