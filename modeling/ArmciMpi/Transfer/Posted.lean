import ArmciMpi.Transfer.Sequence

/-!
# Transfers that are left in flight

A nonblocking call may return with everything it was asked for still in flight:
the sources have not been read, the targets not been written, and for a get the
targets are memory of the caller. `Serves` says what such a call has in common
with a blocking one. Nothing races, outside scratch memory the moves are those
that were asked for, and what is in flight at the end reads sources of the
transfer and writes targets of it, never scratch memory.
-/

namespace ArmciMpi

open Lib Script

namespace Transfer

structure InFlight (env : Env) (proc : Nat) (t : Transfer) (q : Flight Loc UInt8 Rma) : Prop where
  src : q.x.src ⊆ t.sources env.me proc
  writes : t.Writes env.me proc q.x
  fetch : q.fetch = decide (t.kind = .get)
  held : q.held = true → q.x.src = ∅
  on : ∃ win, ∃ g : Nat, q.key.On win g ∧ win.comm.rankOf proc = some g ∧ env.Live win

/-- The actions carry out the transfer, and leave no more in flight than the transfer. -/
structure Serves (env : Env) (proc : Nat) (arena : Set Int) (t : Transfer) (acts : List Act) :
    Prop where
  free : RaceFree ∅ (actSteps env.me acts)
  foot : ∀ x ∈ actXfers env.me acts, x.src ⊆ t.sources env.me proc ∪ scratch env.me arena ∧
    (x.dst ⊆ scratch env.me arena ∨ t.Writes env.me proc x)
  flight : ∀ q ∈ after ∅ (actSteps env.me acts), t.InFlight env proc q
  effect : ∀ m, Set.EqOn (Xfer.applyAll (actXfers env.me acts) m)
    (Xfer.applyAll (t.effect env.me proc) m) (scratch env.me arena)ᶜ

section
variable {env : Env} {proc : Nat} {arena : Set Int} {t : Transfer} {acts acts' : List Act}

theorem InFlight.of {p q : Flight Loc UInt8 Rma} (h : t.InFlight env proc p) (hof : q.Of p) :
    t.InFlight env proc q := by
  obtain rfl | ⟨a, rfl⟩ := hof
  · exact h
  · exact ⟨Set.empty_subset _, h.writes.hold a, h.fetch, fun _ => rfl, h.on⟩

theorem Serves.congr (h : t.Serves env proc arena acts)
    (hsteps : actSteps env.me acts' = actSteps env.me acts) : t.Serves env proc arena acts' := by
  obtain ⟨hfree, hfoot, hflight, heffect⟩ := h
  simp only [actXfers] at hfoot heffect
  rw [← hsteps] at hfree hflight hfoot
  exact ⟨hfree, hfoot, hflight, fun m => by simpa only [actXfers, hsteps] using heffect m⟩

theorem Serves.append (h : t.Serves env proc arena acts) (hnone : actSteps env.me acts' = []) :
    t.Serves env proc arena (acts ++ acts') :=
  h.congr (by rw [actSteps_append, hnone, List.append_nil])

theorem Does.inFlight (h : t.Does env proc arena acts) {q : Flight Loc UInt8 Rma}
    (hq : q ∈ after ∅ (actSteps env.me acts)) : t.InFlight env proc q := by
  obtain ⟨hsrc, hwrites⟩ := h.flight hq
  cases h with
  | send segs hsegs hkind htemps hcall =>
    have hon := hcall.after_on hq
    obtain ⟨a₁, a₂, a₃, win, g, hst, hs, -, hrest, -⟩ := hcall
    rw [actSteps_append, hrest, List.append_nil, actSteps_append, after_append, hst.now.after] at hq
    exact ⟨hsrc ▸ Set.empty_subset _, hwrites, ((hs.append (sends_flush env true)).after hq).2.1,
      fun _ => hsrc, hon⟩
  | get segs hsegs hkind hplace hbufs htemps hcall =>
    rw [hcall.after_empty] at hq
    exact hq.elim
  | copy => exact hq.elim

theorem Does.serves (h : t.Does env proc arena acts) (hp : t.Proper env proc arena) :
    t.Serves env proc arena acts where
  free := h.free hp
  foot _ := h.foot hp
  flight _ := h.inFlight
  effect := h.effect_eqOn hp

variable {win : Win} {g : Nat}

theorem Proper.serves_posted (hp : t.Proper env proc arena) (hfill : t.fill = id)
    (hsends : Sends t.kind t.base win g acts (t.segs.flatMap (segPairs t.base.size t.count)))
    (hrank : win.comm.rankOf proc = some g) (hlive : env.Live win) :
    t.Serves env proc arena acts := by
  have hxfers : actXfers env.me acts =
      moveAll (t.kind.fn t.base) t.base.size (t.ends env.me proc) := hsends.xfers hrank env.me
  have hmove : ∀ x ∈ actXfers env.me acts,
      x.src ⊆ t.sources env.me proc ∧ t.Writes env.me proc x := by
    intro x hx
    rw [hxfers] at hx
    obtain ⟨e, he, rfl⟩ := List.mem_map.mp hx
    exact ⟨(ends_subset he).1, writes_move he e.1⟩
  refine ⟨raceFree_of_indep (fun _ hq => hq.elim) ?_, fun x hx => ?_, fun q hq => ?_, fun m => ?_⟩
  · rw [← actXfers, hxfers]
    exact hp.spread.elems.indep _
  · obtain ⟨hsrc, hwrites⟩ := hmove x hx
    exact ⟨hsrc.trans Set.subset_union_left, .inr hwrites⟩
  · obtain ⟨hon, hfetch, x, hx, ⟨hqx, hheld⟩ | ⟨a, hqx⟩⟩ := hsends.after hq
    · exact ⟨hqx ▸ (hmove x hx).1, hqx ▸ (hmove x hx).2, hfetch,
        fun hyes => absurd (hheld.symm.trans hyes) Bool.false_ne_true, win, g, hon, hrank, hlive⟩
    · exact ⟨hqx ▸ Set.empty_subset _, hqx ▸ (hmove x hx).2.hold a, hfetch, fun _ => hqx ▸ rfl,
        win, g, hon, hrank, hlive⟩
  · rw [hxfers, effect, hfill]
    exact fun _ _ => rfl

end

end Transfer

-- ------------------------------
-- Gets that are completed locally
-- ------------------------------

section
variable {env : Env} {win : Win} {g me : Nat} {acts : List Act} {pairs : List (Int × Int)}

theorem Sends.after_fetch (h : Sends .get .byte win g acts pairs) (localOnly : Bool) :
    Lib.after ∅ (actSteps me (acts ++ [flushAct env localOnly win g])) = ∅ := by
  unfold flushAct
  split
  · exact h.after_flush
  · refine Set.eq_empty_iff_forall_notMem.mpr fun q hq => ?_
    rw [actSteps_append, after_append] at hq
    obtain ⟨⟨p, hp, hof⟩, hpass⟩ := hq
    obtain ⟨hon, hfetch, -⟩ := h.after hp
    have hsame : q.key = p.key ∧ q.fetch = p.fetch := by
      obtain rfl | ⟨a, rfl⟩ := hof <;> exact ⟨rfl, rfl⟩
    have hnot := (hpass.2 ⟨rfl, hsame.1 ▸ hon⟩).1
    simp [hsame.2, hfetch] at hnot

variable {proc : Nat} {arena : Set Int} {t : Transfer} {segs : List Seg} {a₁ a₂ a₃ : List Act}

theorem Transfer.Proper.serves_fetched (hp : t.Proper env proc arena) (hkind : t.kind = .get)
    (hsegs : segs.map Seg.asked = t.segs)
    (hplace : ∀ s ∈ segs, s.buf = s.user ∨ block (env.me, s.buf) t.count ⊆ scratch env.me arena)
    (hbufs : segs.Pairwise fun s s' =>
      Disjoint (block (env.me, s.buf) t.count) (block (env.me, s'.buf) t.count))
    (hstart : actSteps env.me a₁ = [])
    (hsends : Sends .get .byte win g a₂ ((segs.map Seg.sent).flatMap (segPairs 1 t.count)))
    (hrank : win.comm.rankOf proc = some g) (localOnly : Bool)
    (hnow : OnlyNow (actSteps env.me a₃))
    (hback : actXfers env.me a₃ = moveAll (fun x _ => x) t.count (backEnds env.me segs)) :
    t.Serves env proc arena (a₁ ++ (a₂ ++ [flushAct env localOnly win g]) ++ a₃) := by
  have hok := hp.getOk hsegs hkind hplace hbufs
  -- the moves are those of a get that flushes in full
  have hcall : GetCall env t.count proc segs (a₁ ++ (a₂ ++ [.flush win g]) ++ a₃) :=
    .mk a₁ a₂ a₃ win g hstart hsends hrank hnow hback
  have hnone : actXfers env.me [flushAct env localOnly win g] = [] := by
    unfold flushAct
    split <;> rfl
  have hsame : actXfers env.me (a₁ ++ (a₂ ++ [flushAct env localOnly win g]) ++ a₃) =
      actXfers env.me (a₁ ++ (a₂ ++ [.flush win g]) ++ a₃) := by
    simp only [actXfers_append, hnone]
    rfl
  have hafter :
      after ∅ (actSteps env.me (a₁ ++ (a₂ ++ [flushAct env localOnly win g]) ++ a₃)) = ∅ := by
    rw [actSteps_append, actSteps_append, hstart, List.nil_append, after_append,
      hsends.after_fetch, hnow.after]
  refine ⟨?_, fun x hx => ?_, fun q hq => ?_, fun m => ?_⟩
  · rw [actSteps_append, actSteps_append, hstart, List.nil_append, raceFree_append,
      hsends.after_fetch]
    refine ⟨raceFree_of_indep (fun _ hq => hq.elim) ?_, hnow.raceFree⟩
    rw [← actXfers, actXfers_append, hnone, List.append_nil, hsends.xfers hrank]
    have hspread := hok.spread_sent
    rw [← Nat.mul_one t.count] at hspread
    exact hspread.elems.indep _
  · rw [hsame] at hx
    exact Transfer.GetCall.foot hp hsegs hkind hplace hcall hx
  · rw [hafter] at hq
    exact hq.elim
  · have heffect := hcall.effect hok m
    rw [getEffect, hsegs] at heffect
    rwa [hsame, Transfer.effect, Transfer.ends, hp.base_get (by rw [hkind]; decide), hkind,
      hp.fill_get hkind]

end

end ArmciMpi
