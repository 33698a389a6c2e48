import ArmciMpi.Atomics.Visible
import ArmciMpi.Lib.History

/-!
# The stages of a read-modify-write call

The runs of `Visible.lean` with the history of the fetches: the operations in the
order in which MPI fixed their places, each with the call it belongs to and the
bytes it found. Nothing is assumed of the settings, so a call may return before
its update has landed.

A call is in one of five stages (`Stage`). `Consistent` says so of all processes,
and that every operation is issued once, that it is fetched for the call that
issued it, that a swap puts in what `ploc` held in the course of the call, and
that a call that has returned has stored what it found.
-/

namespace ArmciMpi.Rmw

open Lib

variable {J : Job}

/-- A fetch: the call it is made for, the bytes it found, and how often the memory had
changed when the call was made. -/
structure Entry (J : Job) where
  call : RmwCall
  flight : Flight J
  found : List UInt8
  begun : Nat

def fetches (s : State J) : Step J → List (Entry J)
  | .fetch x bytes =>
    match s.phase x.origin with
    | .calling f => [⟨f.call, x, bytes, f.begun⟩]
    | .idle | .getting .. => []
  | .call .. | .act _ | .land _ | .get .. | .read _ => []

def traced (J : Job) : System (State J × List (Entry J)) (Step J) := (system J).traced fetches

-- ------------------------------
-- The stages of a call
-- ------------------------------

/-- The operation and operand are those of the call; a swap takes its operand from the
memory. -/
structure Fits (c : RmwCall) (a : Atomic) (operand : List UInt8) : Prop where
  type : a.type = c.op.type
  op : c.op.rop = .ok a.op
  length : operand.length = a.type.size
  value : c.op.isSwap = false → operand = leBytes a.type.size (c.value % 256 ^ a.type.size).toNat

/-- A swap puts in what `ploc` held at some time since the call was made. -/
def Took (s : State J) (p : Fin J.size) (c : RmwCall) (begun : Nat) (operand : List UInt8) : Prop :=
  c.op.isSwap = true → ∃ seen, seen <+: s.log ∧ begun ≤ seen.length ∧
    bytesAt (memory s.initial seen) (p, c.ploc) c.op.type.size = operand

theorem Took.mono {s t : State J} {p : Fin J.size} {c : RmwCall} {begun : Nat}
    {operand : List UInt8} (h : Took s p c begun operand) (hinit : t.initial = s.initial)
    (hlog : s.log <+: t.log) : Took t p c begun operand := by
  intro hswap
  obtain ⟨seen, hseen, hle, hbytes⟩ := h hswap
  exact ⟨seen, hseen.trans hlog, hle, by rwa [hinit]⟩

def ending (p : Fin J.size) (c : RmwCall) (a : Atomic) : List RmwAct :=
  completion (J.env p) (J.atomics p) a ++ [.store c.op.type c.ploc]

inductive Stage (s : State J) (hist : List (Entry J)) (p : Fin J.size) (f : Frame) : Prop
  | entered (a : Atomic) (htype : a.type = f.call.op.type) (hop : f.call.op.rop = .ok a.op)
      (hid : f.flight = none) (hbegun : f.begun ≤ s.log.length)
      (hrest : f.rest = rmwActs (J.env p) (J.atomics p) f.call.op f.call.ploc f.call.value a)
  | loaded (a : Atomic) (hfits : Fits f.call a f.operand)
      (htook : Took s p f.call f.begun f.operand) (hid : f.flight = none)
      (hrest : f.rest = .atomic (J.atomics p).useRequestAtomics a :: ending p f.call a)
  | issued (x : Flight J) (horigin : x.origin = p) (hfits : Fits f.call x.atomic x.operand)
      (htook : Took s p f.call f.begun x.operand) (hid : f.flight = some x.id)
      (hmem : x ∈ s.issued) (hrest : f.rest = ending p f.call x.atomic)
  | fetched (x : Flight J) (horigin : x.origin = p) (hid : f.flight = some x.id)
      (hmem : ⟨f.call, x, f.result, f.begun⟩ ∈ hist) (acts : List RmwAct)
      (hacts : acts <:+ completion (J.env p) (J.atomics p) x.atomic)
      (hrest : f.rest = acts ++ [.store f.call.op.type f.call.ploc])
  | stored (x : Flight J) (horigin : x.origin = p) (hid : f.flight = some x.id)
      (hmem : ⟨f.call, x, f.result, f.begun⟩ ∈ hist)
      (hlog : .stored (p, f.call.ploc) f.result ∈ s.log) (hrest : f.rest = [])

theorem Stage.mono {s t : State J} {hist hist' : List (Entry J)} {p : Fin J.size} {f : Frame}
    (h : Stage s hist p f) (hinit : t.initial = s.initial)
    (hissued : ∀ x ∈ s.issued, x.origin = p → x ∈ t.issued) (hlog : s.log <+: t.log)
    (hhist : hist <+: hist') : Stage t hist' p f := by
  cases h with
  | entered a htype hop hid hbegun hrest =>
    exact .entered a htype hop hid (hbegun.trans hlog.length_le) hrest
  | loaded a hfits htook hid hrest => exact .loaded a hfits (htook.mono hinit hlog) hid hrest
  | issued x horigin hfits htook hid hmem hrest =>
    exact .issued x horigin hfits (htook.mono hinit hlog) hid (hissued x hmem horigin) hrest
  | fetched x horigin hid hmem acts hacts hrest =>
    exact .fetched x horigin hid (hhist.subset hmem) acts hacts hrest
  | stored x horigin hid hmem hstored hrest =>
    exact .stored x horigin hid (hhist.subset hmem) (hlog.subset hstored) hrest

theorem completion_waits {s : State J} {p : Fin J.size} {f : Frame} {env : Env}
    {cfg : AtomicSettings} {a : Atomic} {x : RmwAct} (hx : x ∈ completion env cfg a) :
    s.effect p f x = s ∧ s.frameAfter p f x = f := by
  cases x with
  | atomic r b => exact absurd rfl (completion_not_atomic _ hx r b)
  | wait | flush | flushLocal => exact ⟨rfl, rfl⟩
  | load | operand | store =>
    unfold completion at hx
    repeat' split at hx
    all_goals simp at hx

theorem completion_blocks (env : Env) (cfg : AtomicSettings) (a : Atomic) :
    ∃ w more, completion env cfg a = w :: more ∧ ∀ (s : State J) (f : Frame) (x : Flight J),
      f.flight = some x.id → x.atomic = a → s.ready x.origin f w → x ∉ s.issued := by
  unfold completion
  split
  · refine ⟨_, _, rfl, fun s f x hid _ hready hmem => ?_⟩
    exact hready x hmem hid.symm
  · split
    · refine ⟨_, _, rfl, fun s f x _ ha hready hmem => ?_⟩
      exact hready x (List.mem_append_left _ hmem) rfl ⟨by rw [ha], by rw [ha]⟩
    · refine ⟨_, _, rfl, fun s f x _ ha hready hmem => ?_⟩
      exact hready x hmem rfl ⟨by rw [ha], by rw [ha]⟩

-- ------------------------------
-- What holds in every run
-- ------------------------------

/-- The call has its place in the history, and its result is at `ploc`. -/
def Done.Recorded (d : Done J) (s : State J) (hist : List (Entry J)) : Prop :=
  ∃ x ∈ hist, x.call = d.call ∧ x.flight.id = d.id ∧ x.flight.origin = d.origin ∧
    .stored (d.origin, d.call.ploc) x.found ∈ s.log

def ids (s : State J) (hist : List (Entry J)) : List Nat :=
  s.issued.map Flight.id ++ hist.map (·.flight.id)

structure Consistent (s : State J) (hist : List (Entry J)) : Prop where
  stage : ∀ p f, s.phase p = .calling f → Stage s hist p f
  calling : ∀ x ∈ s.issued, ∃ f, s.phase x.origin = .calling f ∧ f.flight = some x.id
  fresh : ∀ id ∈ ids s hist, id < s.count
  nodup : (ids s hist).Nodup
  entries : ∀ x ∈ hist, Fits x.call x.flight.atomic x.flight.operand
  found : ∀ x ∈ hist, x.found.length = x.flight.atomic.type.size
  took : ∀ x ∈ hist, Took s x.flight.origin x.call x.begun x.flight.operand
  returned : ∀ d ∈ s.returned, d.Recorded s hist

theorem Done.Recorded.mono {s t : State J} {hist hist' : List (Entry J)} {d : Done J}
    (h : d.Recorded s hist) (hlog : s.log <+: t.log) (hhist : hist <+: hist') :
    d.Recorded t hist' := by
  obtain ⟨x, hx, hcall, hid, horigin, hstored⟩ := h
  exact ⟨x, hhist.subset hx, hcall, hid, horigin, hlog.subset hstored⟩

section
variable {s t : State J} {hist : List (Entry J)} {p : Fin J.size} {f : Frame}

theorem Consistent.set (h : Consistent s hist) (ph : Phase J) (hinit : t.initial = s.initial)
    (hphase : t.phase = Function.update s.phase p ph) (hissued : t.issued = s.issued)
    (hcount : t.count = s.count) (hlog : s.log <+: t.log)
    (hret : ∀ d ∈ t.returned, d ∈ s.returned ∨ d.Recorded t hist)
    (hcalling : ∀ x ∈ s.issued, x.origin = p → ∃ f, ph = .calling f ∧ f.flight = some x.id)
    (hstage : ∀ f, ph = .calling f → Stage t hist p f) : Consistent t hist where
  stage := by
    rw [hphase]
    refine (Function.forall_update_iff s.phase fun q ph => ∀ f, ph = .calling f →
      Stage t hist q f).mpr ⟨hstage, fun q _ f hq => ?_⟩
    exact (h.stage q f hq).mono hinit (fun x hx _ => hissued ▸ hx) hlog (List.prefix_refl _)
  calling := by
    intro x hx
    rw [hissued] at hx
    rw [hphase, Function.update_apply]
    split
    · rename_i hp
      exact hcalling x hx hp
    · exact h.calling x hx
  fresh := by
    rw [ids, hissued, hcount]
    exact h.fresh
  nodup := by
    rw [ids, hissued]
    exact h.nodup
  entries := h.entries
  found := h.found
  took := fun x hx => (h.took x hx).mono hinit hlog
  returned := fun d hd => (hret d hd).elim
    (fun hd => (h.returned d hd).mono hlog (List.prefix_refl _)) id

theorem Consistent.issued_unique (h : Consistent s hist) {x y : Flight J} (hx : x ∈ s.issued)
    (hy : y ∈ s.issued) (horigin : x.origin = y.origin) : x = y := by
  obtain ⟨f, hf, hid⟩ := h.calling x hx
  obtain ⟨g, hg, hid'⟩ := h.calling y hy
  rw [horigin, hg] at hf
  cases hf
  have hids : x.id = y.id := Option.some.inj (hid.symm.trans hid')
  exact List.inj_on_of_nodup_map (List.nodup_append.mp h.nodup).1 hx hy hids

theorem Consistent.fetched_ne (h : Consistent s hist) {x : Flight J} {y : Entry J}
    (hx : x ∈ s.issued) (hy : y ∈ hist) : x.id ≠ y.flight.id :=
  (List.nodup_append.mp h.nodup).2.2 _ (List.mem_map_of_mem hx) _ (List.mem_map_of_mem hy)

theorem Consistent.origin_ne (h : Consistent s hist) (hp : s.phase p = .calling f) {x : Flight J}
    (hx : x ∈ s.issued) (hid : f.flight ≠ some x.id) : x.origin ≠ p := by
  rintro rfl
  obtain ⟨g, hg, hid'⟩ := h.calling x hx
  rw [hp] at hg
  cases hg
  exact hid hid'

theorem Consistent.origin_ne_of_not_calling (h : Consistent s hist)
    (hp : ∀ f, s.phase p ≠ .calling f) {x : Flight J} (hx : x ∈ s.issued) : x.origin ≠ p := by
  rintro rfl
  obtain ⟨g, hg, -⟩ := h.calling x hx
  exact hp g hg

theorem Consistent.origin_ne_of_fetched (h : Consistent s hist) (hp : s.phase p = .calling f)
    {y : Entry J} (hy : y ∈ hist) (hid : f.flight = some y.flight.id) {x : Flight J}
    (hx : x ∈ s.issued) : x.origin ≠ p :=
  h.origin_ne hp hx fun hid' => h.fetched_ne hx hy (Option.some.inj (hid'.symm.trans hid))

theorem Stage.load {a : Atomic} (htype : a.type = f.call.op.type) (hop : f.call.op.rop = .ok a.op)
    (hid : f.flight = none) (hbegun : f.begun ≤ s.log.length) (hinit : t.initial = s.initial)
    (hlog : s.log <+: t.log) : Stage t hist p
      { s.frameAfter p f (operandAct f.call.op f.call.ploc f.call.value) with
        rest := .atomic (J.atomics p).useRequestAtomics a :: ending p f.call a } := by
  unfold operandAct
  cases hswap : f.call.op.isSwap with
  | true =>
    refine .loaded a ⟨htype, hop, ?_, fun hno => ?_⟩ (fun _ => ⟨s.log, hlog, hbegun, ?_⟩) hid rfl
    · simp [State.frameAfter, htype]
    · exact absurd (hswap.symm.trans hno) Bool.true_eq_false.mp
    · rw [hinit]
      rfl
  | false =>
    refine .loaded a ⟨htype, hop, ?_, fun _ => ?_⟩ (fun hyes => ?_) hid rfl
    · simp [State.frameAfter, htype]
    · rewrite [htype]
      rfl
    · exact absurd (hswap.symm.trans hyes) Bool.false_ne_true

theorem Consistent.issue (h : Consistent s hist) (hp : s.phase p = .calling f)
    (hid : f.flight = none) {a : Atomic} (hfits : Fits f.call a f.operand)
    (htook : Took s p f.call f.begun f.operand) (r : Bool) :
    Consistent ((s.effect p f (.atomic r a)).setPhase p
      (.calling { s.frameAfter p f (.atomic r a) with rest := ending p f.call a })) hist := by
  have hnone : ∀ x ∈ s.issued, x.origin ≠ p := fun x hx => h.origin_ne hp hx (by simp [hid])
  let t := (s.effect p f (.atomic r a)).setPhase p
    (.calling { s.frameAfter p f (.atomic r a) with rest := ending p f.call a })
  have hids : (ids t hist).Perm (s.count :: ids s hist) := by
    simp only [t, ids, State.effect, State.setPhase, List.map_append, List.append_assoc]
    exact List.perm_middle
  refine ⟨?_, fun x hx => ?_, fun id hmem => ?_, ?_, h.entries, h.found, fun x hx => h.took x hx,
    fun d hd => h.returned d hd⟩
  · refine (Function.forall_update_iff s.phase fun q ph => ∀ f, ph = .calling f →
      Stage t hist q f).mpr ⟨?_, fun q _ g hq => ?_⟩
    · rintro g hg
      cases hg
      exact .issued ⟨s.count, p, a, f.operand⟩ rfl hfits htook rfl
        (List.mem_append_right _ List.mem_cons_self) rfl
    · exact (h.stage q g hq).mono rfl (fun x hx _ => List.mem_append_left _ hx)
        (List.prefix_refl _) (List.prefix_refl _)
  · rcases List.mem_append.mp hx with hx | hx
    · obtain ⟨g, hg, hid'⟩ := h.calling x hx
      exact ⟨g, (Function.update_of_ne (hnone x hx) _ _).trans hg, hid'⟩
    · rw [List.mem_singleton.mp hx]
      exact ⟨_, Function.update_self .., rfl⟩
  · rcases List.mem_cons.mp (hids.mem_iff.mp hmem) with rfl | hmem
    · exact Nat.lt_succ_self _
    · exact Nat.lt_succ_of_lt (h.fresh id hmem)
  · exact hids.nodup_iff.mpr (List.nodup_cons.mpr ⟨fun hmem => (h.fresh _ hmem).false, h.nodup⟩)

theorem Stage.wait {acts : List RmwAct} {x : RmwAct} {y : Flight J}
    (horigin : y.origin = p) (hid : f.flight = some y.id)
    (hmem : ⟨f.call, y, f.result, f.begun⟩ ∈ hist)
    (hacts : x :: acts <:+ completion (J.env p) (J.atomics p) y.atomic) :
    Stage t hist p { f with rest := acts ++ [.store f.call.op.type f.call.ploc] } :=
  .fetched y horigin hid hmem acts ((List.suffix_cons x acts).trans hacts) rfl

theorem Consistent.act (h : Consistent s hist) (hp : s.phase p = .calling f)
    (ht : s.act p f = some t) : Consistent t hist := by
  unfold State.act at ht
  cases h.stage p f hp with
  | entered a htype hop hid hbegun hrest =>
    have hr : f.rest = operandAct f.call.op f.call.ploc f.call.value ::
        .atomic (J.atomics p).useRequestAtomics a :: ending p f.call a := hrest
    have heffect : s.effect p f (operandAct f.call.op f.call.ploc f.call.value) = s := by
      unfold operandAct
      split <;> rfl
    simp only [hr, heffect, Option.ite_none_right_eq_some, Option.some.injEq] at ht
    obtain ⟨-, rfl⟩ := ht
    refine h.set _ rfl rfl rfl rfl (List.prefix_refl _) (fun d hd => .inl hd)
      (fun x hx horigin => absurd horigin (h.origin_ne hp hx (by simp [hid]))) fun g hg => ?_
    cases hg
    exact .load htype hop hid hbegun rfl (List.prefix_refl _)
  | loaded a hfits htook hid hrest =>
    simp only [hrest, Option.ite_none_right_eq_some, Option.some.injEq] at ht
    obtain ⟨-, rfl⟩ := ht
    exact h.issue hp hid hfits htook _
  | issued x horigin hfits htook hid hmem hrest =>
    -- the first action of the completion waits for the fetch
    subst horigin
    obtain ⟨w, more, hcompletion, hblocks⟩ := completion_blocks (J := J) (J.env x.origin)
      (J.atomics x.origin) x.atomic
    simp only [hrest, ending, hcompletion, List.cons_append, Option.ite_none_right_eq_some] at ht
    exact absurd hmem (hblocks s f x hid rfl ht.1)
  | fetched x horigin hid hmem acts hacts hrest =>
    have hother : ∀ y ∈ s.issued, y.origin ≠ p := fun y hy => h.origin_ne_of_fetched hp hmem hid hy
    cases acts with
    | nil =>
      simp only [hrest, List.nil_append, Option.ite_none_right_eq_some, Option.some.injEq] at ht
      obtain ⟨-, rfl⟩ := ht
      refine h.set _ rfl rfl rfl rfl (List.prefix_append _ _) (fun d hd => .inl hd)
        (fun y hy horigin => absurd horigin (hother y hy)) fun g hg => ?_
      cases hg
      exact .stored x horigin hid hmem (List.mem_append_right _ List.mem_cons_self) rfl
    | cons w acts =>
      obtain ⟨heffect, hframe⟩ := completion_waits (s := s) (p := p) (f := f)
        (hacts.subset List.mem_cons_self)
      simp only [hrest, List.cons_append, heffect, hframe, Option.ite_none_right_eq_some,
        Option.some.injEq] at ht
      obtain ⟨-, rfl⟩ := ht
      refine h.set _ rfl rfl rfl rfl (List.prefix_refl _) (fun d hd => .inl hd)
        (fun y hy horigin => absurd horigin (hother y hy)) fun g hg => ?_
      cases hg
      exact .wait horigin hid hmem hacts
  | stored x horigin hid hmem hlog hrest =>
    simp only [hrest, hid, Option.some.injEq] at ht
    subst ht
    refine h.set .idle rfl rfl rfl rfl (List.prefix_refl _) (fun d hd => ?_)
      (fun y hy horigin => absurd horigin (h.origin_ne_of_fetched hp hmem hid hy))
      fun g hg => by cases hg
    rcases List.mem_append.mp hd with hd | hd
    · exact .inl hd
    · rw [List.mem_singleton.mp hd]
      exact .inr ⟨_, hmem, rfl, rfl, horigin, hlog⟩

theorem Consistent.waiting (h : Consistent s hist) {x : Flight J} (hx : x ∈ s.issued)
    (hp : s.phase x.origin = .calling f) : f.flight = some x.id ∧
      Fits f.call x.atomic x.operand ∧ Took s x.origin f.call f.begun x.operand ∧
        f.rest = ending x.origin f.call x.atomic := by
  obtain ⟨g, hg, hid⟩ := h.calling x hx
  rw [hp] at hg
  cases hg
  cases h.stage x.origin f hp with
  | issued y horigin hfits htook hid' hmem hrest =>
    obtain rfl := h.issued_unique hmem hx horigin
    exact ⟨hid, hfits, htook, hrest⟩
  | entered a htype hop hnone hbegun hrest => exact absurd (hnone.symm.trans hid) (by simp)
  | loaded a hfits htook hnone hrest => exact absurd (hnone.symm.trans hid) (by simp)
  | fetched y horigin hid' hmem acts hacts hrest =>
    exact absurd rfl (h.origin_ne_of_fetched hp hmem hid' hx)
  | stored y horigin hid' hmem hlog hrest =>
    exact absurd rfl (h.origin_ne_of_fetched hp hmem hid' hx)

theorem Consistent.fetch (h : Consistent s hist) {x : Flight J} (hx : x ∈ s.issued)
    (hp : s.phase x.origin = .calling f) {bytes : List UInt8}
    (hlen : bytes.length = x.atomic.type.size) :
    Consistent { s with
      issued := s.issued.erase x
      fetched := s.fetched ++ [x]
      phase := Function.update s.phase x.origin (.calling { f with result := bytes }) }
      (hist ++ [⟨f.call, x, bytes, f.begun⟩]) := by
  obtain ⟨hid, hfits, htook, hrest⟩ := h.waiting hx hp
  have hnodup : s.issued.Nodup := .of_map _ (List.nodup_append.mp h.nodup).1
  have hids : ∀ t : State J, t.issued = s.issued.erase x →
      (ids t (hist ++ [⟨f.call, x, bytes, f.begun⟩])).Perm (ids s hist) := by
    intro t ht
    have hperm := (List.perm_cons_erase hx).map Flight.id
    simp only [ids, ht, List.map_append, List.map_cons, List.map_nil]
    refine List.Perm.trans ?_ (hperm.symm.append_right _)
    rw [← List.append_assoc]
    exact List.perm_append_comm
  refine ⟨?_, fun y hy => ?_, fun id hmem => ?_, ?_, List.forall_mem_append.mpr ⟨h.entries, ?_⟩,
    List.forall_mem_append.mpr ⟨h.found, ?_⟩,
    List.forall_mem_append.mpr ⟨fun y hy => h.took y hy, ?_⟩, fun d hd => ?_⟩
  · refine (Function.forall_update_iff s.phase fun q ph => ∀ f, ph = .calling f →
      Stage _ _ q f).mpr ⟨?_, fun q hq g hg => ?_⟩
    · rintro g hg
      cases hg
      exact .fetched x rfl hid (List.mem_append_right _ List.mem_cons_self) _ (List.suffix_refl _)
        hrest
    · refine (h.stage q g hg).mono rfl (fun y hy horigin => ?_) (List.prefix_refl _)
        (List.prefix_append _ _)
      exact (List.mem_erase_of_ne (by rintro rfl; exact hq horigin.symm)).mpr hy
  · have hyx := (hnodup.mem_erase_iff).mp hy
    obtain ⟨g, hg, hid'⟩ := h.calling y hyx.2
    have hne : y.origin ≠ x.origin := fun horigin => hyx.1 (h.issued_unique hyx.2 hx horigin)
    exact ⟨g, (Function.update_of_ne hne _ _).trans hg, hid'⟩
  · exact h.fresh id ((hids _ rfl).mem_iff.mp hmem)
  · exact (hids _ rfl).nodup_iff.mpr h.nodup
  · exact List.forall_mem_singleton.mpr hfits
  · exact List.forall_mem_singleton.mpr hlen
  · exact List.forall_mem_singleton.mpr htook
  · exact (h.returned d hd).mono (List.prefix_refl _) (List.prefix_append _ _)

theorem Consistent.next (h : Consistent s hist) {a : Step J} (hn : next s a = some t) :
    Consistent t (hist ++ fetches s a) := by
  cases a with
  | call p c =>
    simp only [Rmw.next] at hn
    split at hn
    · rename_i acts hp hrun
      cases hn
      obtain ⟨a, htype, hop, rfl⟩ := parmciRmw_eq_ok hrun
      simp only [fetches, List.append_nil]
      refine h.set _ rfl rfl rfl rfl (List.prefix_refl _) (fun d hd => .inl hd)
        (fun x hx horigin => absurd horigin (h.origin_ne_of_not_calling (by simp [hp]) hx))
        fun g hg => ?_
      cases hg
      exact .entered a htype hop rfl (le_refl _) rfl
    · cases hn
  | act p =>
    simp only [Rmw.next] at hn
    split at hn
    · rename_i f hp
      simp only [fetches, List.append_nil]
      exact h.act hp hn
    · cases hn
  | fetch x bytes =>
    simp only [Rmw.next, Option.ite_none_right_eq_some, Option.some.injEq] at hn
    obtain ⟨⟨hx, hlen⟩, rfl⟩ := hn
    obtain ⟨f, hp, -⟩ := h.calling x hx
    simp only [fetches, hp]
    exact h.fetch hx hp hlen
  | land x =>
    simp only [Rmw.next, Option.ite_none_right_eq_some, Option.some.injEq] at hn
    obtain ⟨-, rfl⟩ := hn
    simp only [fetches, List.append_nil]
    refine h.set (s.phase x.origin) rfl (Function.update_eq_self _ _).symm rfl rfl
      (List.prefix_append _ _) (fun d hd => .inl hd) (fun y hy horigin => horigin ▸ h.calling y hy)
      fun f hf => ?_
    exact (h.stage x.origin f hf).mono rfl (fun y hy _ => hy) (List.prefix_append _ _)
      (List.prefix_refl _)
  | get p loc n =>
    simp only [Rmw.next] at hn
    split at hn
    · rename_i hp
      cases hn
      simp only [fetches, List.append_nil]
      exact h.set _ rfl rfl rfl rfl (List.prefix_refl _) (fun d hd => .inl hd)
        (fun x hx horigin => absurd horigin (h.origin_ne_of_not_calling (by simp [hp]) hx))
        fun g hg => by cases hg
    · cases hn
  | read p =>
    simp only [Rmw.next] at hn
    split at hn
    · rename_i hp
      cases hn
      simp only [fetches, List.append_nil]
      exact h.set .idle rfl rfl rfl rfl (List.prefix_refl _) (fun d hd => .inl hd)
        (fun x hx horigin => absurd horigin (h.origin_ne_of_not_calling (by simp [hp]) hx))
        fun g hg => by cases hg
    · cases hn

end

end ArmciMpi.Rmw
