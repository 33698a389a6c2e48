import ArmciMpi.Atomics.Rmw
import ArmciMpi.Lib.Transition
import ArmciMpi.Transfer.Consistency

/-!
# When an update is visible

Processes call `PARMCI_Rmw` and get memory of each other. MPI performs an atomic
operation in two steps: it fetches the element and fixes the place of the
operation among those on the element, and later the update lands in the
target's memory. Nothing is assumed of what a fetch finds and of the order in
which updates land. `MPI_Wait` and a local flush wait for the first step only, a
flush waits for both. A get reads the memory as it is at some time between its
call and its return.

`rmw_visible_iff` says for which settings and operations a call that has
returned has landed, so that every get called after the return reads a memory
with the update. Both directions are over all runs, with any other calls going
on meanwhile.
-/

namespace ArmciMpi

open Lib

structure Job where
  size : Nat
  env : Fin size → Env
  atomics : Fin size → AtomicSettings

/-- The arguments of `PARMCI_Rmw`. -/
structure RmwCall where
  op : RmwOp
  ploc : Int
  prem : Int
  value : Int
  proc : Nat
  deriving DecidableEq

def RmwCall.run (c : RmwCall) (env : Env) (cfg : AtomicSettings) : Script RmwAct Unit :=
  parmciRmw env cfg c.op c.ploc c.prem c.value c.proc

namespace Atomic

def loc (a : Atomic) : Loc :=
  ((a.win.worldRank a.target).getD 0, (a.win.base[a.target.toNat]?).getD 0 + a.disp)

def update (a : Atomic) (operand old : List UInt8) : List UInt8 :=
  match a.op with
  | .sum => a.type.sum operand old
  | .replace => operand

def On (a : Atomic) (win : Win) (target : Int) : Prop := a.win.id = win.id ∧ a.target = target

instance (a : Atomic) (win : Win) (target : Int) : Decidable (a.On win target) :=
  inferInstanceAs (Decidable (a.win.id = win.id ∧ a.target = target))

end Atomic

namespace Rmw

variable {J : Job}

structure Flight (J : Job) where
  id : Nat
  origin : Fin J.size
  atomic : Atomic
  operand : List UInt8
  deriving DecidableEq

inductive Change (J : Job)
  | landed (f : Flight J)
  | stored (l : Loc) (bytes : List UInt8)

def Flight.apply (m : Mem) (f : Flight J) : Mem :=
  writeBytes m f.atomic.loc
    (f.atomic.update f.operand (bytesAt m f.atomic.loc f.atomic.type.size))

def Change.apply (m : Mem) : Change J → Mem
  | landed f => f.apply m
  | stored l bytes => writeBytes m l bytes

structure Done (J : Job) where
  origin : Fin J.size
  call : RmwCall
  id : Nat

/-- A get that has returned: the calls of `PARMCI_Rmw` that had returned when it
was called, and the changes in the memory it read. -/
structure Get (J : Job) where
  loc : Loc
  n : Nat
  since : List (Done J)
  seen : List (Change J)

/-- A call under way: what it has left to do, its two variables, the number of its
operation, and how often the memory had changed when it was made. -/
structure Frame where
  call : RmwCall
  rest : List RmwAct
  operand : List UInt8
  result : List UInt8
  flight : Option Nat
  begun : Nat

inductive Phase (J : Job)
  | idle
  | calling (f : Frame)
  | getting (loc : Loc) (n : Nat) (since : List (Done J))

/-- The operations called for are `issued` until their element is fetched, then
`fetched` until they land. -/
structure State (J : Job) where
  initial : Mem
  log : List (Change J)
  count : Nat
  issued : List (Flight J)
  fetched : List (Flight J)
  phase : Fin J.size → Phase J
  returned : List (Done J)
  gets : List (Get J)

def memory (initial : Mem) (log : List (Change J)) : Mem := log.foldl Change.apply initial

def Get.data (initial : Mem) (g : Get J) : List UInt8 := bytesAt (memory initial g.seen) g.loc g.n

namespace State

def mem (s : State J) : Mem := memory s.initial s.log

def setPhase (s : State J) (p : Fin J.size) (ph : Phase J) : State J :=
  { s with phase := Function.update s.phase p ph }

def ready (s : State J) (p : Fin J.size) (f : Frame) : RmwAct → Prop
  | .wait => ∀ x ∈ s.issued, some x.id ≠ f.flight
  | .flush w t => ∀ x ∈ s.issued ++ s.fetched, x.origin = p → ¬ x.atomic.On w t
  | .flushLocal w t => ∀ x ∈ s.issued, x.origin = p → ¬ x.atomic.On w t
  | .load .. | .operand .. | .atomic .. | .store .. => True

instance (s : State J) (p : Fin J.size) (f : Frame) (a : RmwAct) : Decidable (s.ready p f a) :=
  match a with
  | .wait => inferInstanceAs (Decidable (∀ x ∈ s.issued, some x.id ≠ f.flight))
  | .flush w t =>
    inferInstanceAs (Decidable (∀ x ∈ s.issued ++ s.fetched, x.origin = p → ¬ x.atomic.On w t))
  | .flushLocal w t =>
    inferInstanceAs (Decidable (∀ x ∈ s.issued, x.origin = p → ¬ x.atomic.On w t))
  | .load .. | .operand .. | .atomic .. | .store .. => inferInstanceAs (Decidable True)

def frameAfter (s : State J) (p : Fin J.size) (f : Frame) : RmwAct → Frame
  | .load type ploc => { f with operand := bytesAt s.mem (p, ploc) type.size }
  | .operand type value =>
    { f with operand := leBytes type.size (value % 256 ^ type.size).toNat }
  | .atomic _ _ => { f with flight := some s.count }
  | .wait | .flush .. | .flushLocal .. | .store .. => f

def effect (s : State J) (p : Fin J.size) (f : Frame) : RmwAct → State J
  | .atomic _ a =>
    { s with count := s.count + 1, issued := s.issued ++ [⟨s.count, p, a, f.operand⟩] }
  | .store _ ploc => { s with log := s.log ++ [.stored (p, ploc) f.result] }
  | .load .. | .operand .. | .wait | .flush .. | .flushLocal .. => s

def act (s : State J) (p : Fin J.size) (f : Frame) : Option (State J) :=
  match f.rest with
  | a :: rest =>
    if s.ready p f a then
      some ((s.effect p f a).setPhase p (.calling { s.frameAfter p f a with rest := rest }))
    else none
  | [] =>
    match f.flight with
    | some id => some { s.setPhase p .idle with returned := s.returned ++ [⟨p, f.call, id⟩] }
    | none => none

end State

def Phase.receive (bytes : List UInt8) : Phase J → Phase J
  | .calling f => .calling { f with result := bytes }
  | ph => ph

inductive Step (J : Job)
  | call (p : Fin J.size) (c : RmwCall)
  | act (p : Fin J.size)
  | fetch (x : Flight J) (bytes : List UInt8)
  | land (x : Flight J)
  | get (p : Fin J.size) (loc : Loc) (n : Nat)
  | read (p : Fin J.size)

def next (s : State J) : Step J → Option (State J)
  | .call p c =>
    match s.phase p, c.run (J.env p) (J.atomics p) [] with
    | .idle, (.ok (), acts) => some (s.setPhase p (.calling ⟨c, acts, [], [], none, s.log.length⟩))
    | _, _ => none
  | .act p =>
    match s.phase p with
    | .calling f => s.act p f
    | _ => none
  | .fetch x bytes =>
    if x ∈ s.issued ∧ bytes.length = x.atomic.type.size then
      some { s with issued := s.issued.erase x
                    fetched := s.fetched ++ [x]
                    phase := Function.update s.phase x.origin
                      ((s.phase x.origin).receive bytes) }
    else none
  | .land x =>
    if x ∈ s.fetched then
      some { s with fetched := s.fetched.erase x, log := s.log ++ [.landed x] }
    else none
  | .get p loc n =>
    match s.phase p with
    | .idle => some (s.setPhase p (.getting loc n s.returned))
    | _ => none
  | .read p =>
    match s.phase p with
    | .getting loc n since =>
      some { s.setPhase p .idle with gets := s.gets ++ [⟨loc, n, since, s.log⟩] }
    | _ => none

def start (J : Job) (m : Mem) : State J := ⟨m, [], 0, [], [], fun _ => .idle, [], []⟩

def system (J : Job) : System (State J) (Step J) := ⟨fun s => ∃ m, s = start J m, next⟩

-- ------------------------------
-- The steps
-- ------------------------------

def Landed (log : List (Change J)) (id : Nat) : Prop := ∃ x, .landed x ∈ log ∧ x.id = id

theorem Landed.append {log : List (Change J)} {id : Nat} (h : Landed log id)
    (more : List (Change J)) : Landed (log ++ more) id := by
  obtain ⟨x, hx, hid⟩ := h
  exact ⟨x, List.mem_append_left _ hx, hid⟩

def State.Flying (s : State J) (p : Fin J.size) (id : Nat) (a : Atomic) : Prop :=
  ∃ x ∈ s.issued ++ s.fetched, x.id = id ∧ x.origin = p ∧ x.atomic = a

structure Keeps (s t : State J) : Prop where
  flying : ∀ p id a, s.Flying p id a → t.Flying p id a ∨ Landed t.log id
  log : s.log <+: t.log

theorem Keeps.landed {s t : State J} (h : Keeps s t) {id : Nat} (hid : Landed s.log id) :
    Landed t.log id := by
  obtain ⟨more, hlog⟩ := h.log
  exact hlog ▸ hid.append more

theorem Keeps.of_eq {s t : State J} (hissued : t.issued = s.issued) (hfetched : t.fetched = s.fetched)
    (hlog : s.log <+: t.log) : Keeps s t where
  flying := fun p id a h => by
    refine .inl ?_
    unfold State.Flying at h ⊢
    rwa [hissued, hfetched]
  log := hlog

theorem Keeps.effect (s : State J) (p : Fin J.size) (f : Frame) (a : RmwAct) :
    Keeps s (s.effect p f a) := by
  cases a with
  | atomic r a =>
    refine ⟨fun q id b h => .inl ?_, List.prefix_refl _⟩
    obtain ⟨x, hx, hrest⟩ := h
    refine ⟨x, ?_, hrest⟩
    rcases List.mem_append.mp hx with hx | hx
    · exact List.mem_append_left _ (List.mem_append_left _ hx)
    · exact List.mem_append_right _ hx
  | store type ploc => exact .of_eq rfl rfl (List.prefix_append _ _)
  | load | operand | wait | flush | flushLocal => exact .of_eq rfl rfl (List.prefix_refl _)

theorem Keeps.fetch {s : State J} {x : Flight J} (ph : Fin J.size → Phase J) :
    Keeps s { s with issued := s.issued.erase x, fetched := s.fetched ++ [x], phase := ph } := by
  refine ⟨fun p id a h => .inl ?_, List.prefix_refl _⟩
  obtain ⟨y, hy, hrest⟩ := h
  refine ⟨y, ?_, hrest⟩
  rcases List.mem_append.mp hy with hy | hy
  · by_cases heq : y = x
    · exact List.mem_append_right _ (by simp [heq])
    · exact List.mem_append_left _ ((List.mem_erase_of_ne heq).mpr hy)
  · exact List.mem_append_right _ (List.mem_append_left _ hy)

theorem Keeps.land {s : State J} {x : Flight J} :
    Keeps s { s with fetched := s.fetched.erase x, log := s.log ++ [.landed x] } := by
  refine ⟨fun p id a h => ?_, List.prefix_append _ _⟩
  obtain ⟨y, hy, hid, hrest⟩ := h
  by_cases heq : y = x
  · exact .inr ⟨x, by simp, heq ▸ hid⟩
  · refine .inl ⟨y, ?_, hid, hrest⟩
    rcases List.mem_append.mp hy with hy | hy
    · exact List.mem_append_left _ hy
    · exact List.mem_append_right _ ((List.mem_erase_of_ne heq).mpr hy)

-- ------------------------------
-- The invariant
-- ------------------------------

/-- The settings of the process do not leave the call to `MPI_Wait` alone. -/
def Flushed (J : Job) (p : Fin J.size) (c : RmwCall) : Prop :=
  (J.atomics p).useRequestAtomics = false ∨ (J.atomics p).flushRequestAtomics = true ∨
    c.op.isSwap = true

def NotAtomic (acts : List RmwAct) : Prop := ∀ x ∈ acts, ∀ r a, x ≠ .atomic r a

/-- A call that ends in a flush: until its operation has landed, the flush is still
to come. -/
inductive Sound (s : State J) (p : Fin J.size) (f : Frame) : Prop
  | before (pre : List RmwAct) (r : Bool) (a : Atomic) (tail : List RmwAct)
      (hrest : f.rest = pre ++ .atomic r a :: tail) (hpre : NotAtomic pre) (htail : NotAtomic tail)
      (hflush : .flush a.win a.target ∈ tail)
  | after (id : Nat) (a : Atomic) (hid : f.flight = some id) (hrest : NotAtomic f.rest)
      (h : Landed s.log id ∨ s.Flying p id a ∧ .flush a.win a.target ∈ f.rest)

def AtPhase (s : State J) (p : Fin J.size) : Phase J → Prop
  | .idle => True
  | .calling f => Flushed J p f.call → Sound s p f
  | .getting _ _ since => ∀ d ∈ since, d ∈ s.returned

structure Inv (s : State J) : Prop where
  phase : ∀ p, AtPhase s p (s.phase p)
  returned : ∀ d ∈ s.returned, Flushed J d.origin d.call → Landed s.log d.id
  gets : ∀ g ∈ s.gets, ∀ d ∈ g.since, Flushed J d.origin d.call → Landed g.seen d.id

theorem AtPhase.mono {s t : State J} (hkeeps : Keeps s t) (hret : s.returned ⊆ t.returned)
    {p : Fin J.size} {ph : Phase J} (h : AtPhase s p ph) : AtPhase t p ph := by
  cases ph with
  | idle => trivial
  | getting loc n since => exact fun d hd => hret (h d hd)
  | calling f =>
    intro hc
    cases h hc with
    | before pre r a tail hrest hpre htail hflush =>
      exact .before pre r a tail hrest hpre htail hflush
    | after id a hid hrest hland =>
      refine .after id a hid hrest ?_
      rcases hland with hland | ⟨hfly, hflush⟩
      · exact .inl (hkeeps.landed hland)
      · exact (hkeeps.flying p id a hfly).elim (fun hfly => .inr ⟨hfly, hflush⟩) .inl

theorem Inv.phases {s t : State J} (h : Inv s) (hkeeps : Keeps s t)
    (hret : s.returned ⊆ t.returned) {p : Fin J.size} {ph : Phase J}
    (hphase : t.phase = Function.update s.phase p ph) (hp : AtPhase t p ph) :
    ∀ q, AtPhase t q (t.phase q) := by
  rw [hphase]
  exact (Function.forall_update_iff s.phase fun q ph => AtPhase t q ph).mpr
    ⟨hp, fun q _ => (h.phase q).mono hkeeps hret⟩

theorem Inv.update {s t : State J} (h : Inv s) (hkeeps : Keeps s t) {p : Fin J.size}
    (ph : Phase J) (hphase : t.phase = Function.update s.phase p ph)
    (hret : t.returned = s.returned) (hgets : t.gets = s.gets) (hp : AtPhase t p ph) : Inv t where
  phase := h.phases hkeeps (hret ▸ List.Subset.refl _) hphase hp
  returned := fun d hd hc => hkeeps.landed (h.returned d (hret ▸ hd) hc)
  gets := hgets ▸ h.gets

section
variable (hflush : ∀ p, (J.env p).cfg.endToEndFlush = true)
include hflush

theorem sound_call {p : Fin J.size} {c : RmwCall} {acts : List RmwAct} {s : State J}
    (hrun : c.run (J.env p) (J.atomics p) [] = (.ok (), acts)) (hc : Flushed J p c) :
    Sound s p ⟨c, acts, [], [], none, s.log.length⟩ := by
  obtain ⟨a, -, hop, rfl⟩ := parmciRmw_eq_ok hrun
  refine .before [operandAct c.op c.ploc c.value] _ a
    (completion (J.env p) (J.atomics p) a ++ [.store c.op.type c.ploc]) rfl ?_ ?_ ?_
  · intro x hx r b
    rw [List.mem_singleton.mp hx, operandAct]
    split <;> exact RmwAct.noConfusion
  · intro x hx r b
    rcases List.mem_append.mp hx with hx | hx
    · exact completion_not_atomic x hx r b
    · rw [List.mem_singleton.mp hx]
      exact RmwAct.noConfusion
  · refine List.mem_append_left _ (flush_mem_completion (hflush p) ?_)
    rwa [RmwOp.rop_replace hop]

end

theorem Sound.act {s : State J} {p : Fin J.size} {f : Frame} (h : Sound s p f) {x : RmwAct}
    {rest : List RmwAct} (hx : f.rest = x :: rest) (hready : s.ready p f x) :
    Sound (s.effect p f x) p { s.frameAfter p f x with rest := rest } := by
  cases h with
  | before pre r a tail hrest hpre htail hflush =>
    rw [hx] at hrest
    cases pre with
    | nil =>
      -- the operation itself
      cases hrest
      refine .after s.count a rfl htail (.inr ⟨⟨⟨s.count, p, a, f.operand⟩, ?_, rfl, rfl, rfl⟩, hflush⟩)
      exact List.mem_append_left _ (List.mem_append_right _ List.mem_cons_self)
    | cons y pre =>
      cases hrest
      exact .before pre r a tail rfl (fun z hz => hpre z (List.mem_cons_of_mem _ hz)) htail hflush
  | after id a hid hrest hland =>
    rw [hx] at hrest hland
    have hflight : (s.frameAfter p f x).flight = some id := by
      cases x with
      | atomic r b => exact absurd rfl (hrest _ List.mem_cons_self r b)
      | load | operand | wait | flush | flushLocal | store => exact hid
    refine .after id a hflight (fun z hz => hrest z (List.mem_cons_of_mem _ hz)) ?_
    have hkeeps := Keeps.effect s p f x
    rcases hland with hland | ⟨hfly, hflush⟩
    · exact .inl (hkeeps.landed hland)
    · rcases List.mem_cons.mp hflush with rfl | hflush
      · -- a flush does not return before the operation has landed
        obtain ⟨y, hy, -, horigin, rfl⟩ := hfly
        exact absurd ⟨rfl, rfl⟩ (hready y hy horigin)
      · exact (hkeeps.flying p id a hfly).elim (fun hfly => .inr ⟨hfly, hflush⟩) .inl

theorem Sound.done {s : State J} {p : Fin J.size} {f : Frame} {id : Nat} (h : Sound s p f)
    (hrest : f.rest = []) (hid : f.flight = some id) : Landed s.log id := by
  cases h with
  | before pre r a tail hrest' =>
    rw [hrest] at hrest'
    exact absurd hrest'.symm (by simp)
  | after id' a hid' _ hland =>
    rw [hid] at hid'
    cases hid'
    rw [hrest] at hland
    exact hland.elim (fun hland => hland) fun hfly => absurd hfly.2 List.not_mem_nil

theorem Inv.act {s t : State J} (h : Inv s) {p : Fin J.size} {f : Frame}
    (hp : s.phase p = .calling f) (ht : s.act p f = some t) : Inv t := by
  have hcall : Flushed J p f.call → Sound s p f := by
    have := h.phase p
    rwa [hp] at this
  unfold State.act at ht
  split at ht
  · rename_i x rest hx
    split at ht
    · rename_i hready
      cases ht
      have hkeeps : Keeps s ((s.effect p f x).setPhase p
          (.calling { s.frameAfter p f x with rest := rest })) :=
        ⟨(Keeps.effect s p f x).flying, (Keeps.effect s p f x).log⟩
      have hcall' : (s.frameAfter p f x).call = f.call := by cases x <;> rfl
      refine h.update hkeeps (p := p) (.calling { s.frameAfter p f x with rest := rest }) ?_ ?_ ?_
        fun hc => ?_
      · cases x <;> rfl
      · cases x <;> rfl
      · cases x <;> rfl
      · cases (hcall (hcall' ▸ hc)).act hx hready with
        | before pre r a tail h₁ h₂ h₃ h₄ => exact .before pre r a tail h₁ h₂ h₃ h₄
        | after id a h₁ h₂ h₃ => exact .after id a h₁ h₂ h₃
    · cases ht
  · rename_i hrest
    split at ht
    · rename_i id hid
      cases ht
      refine ⟨h.phases (.of_eq rfl rfl (List.prefix_refl _)) (List.subset_append_left _ _) rfl
        trivial, fun d hd hc => ?_, h.gets⟩
      rcases List.mem_append.mp hd with hd | hd
      · exact h.returned d hd hc
      · rw [List.mem_singleton.mp hd] at hc ⊢
        exact (hcall hc).done hrest hid
    · cases ht

theorem AtPhase.receive {s : State J} {p : Fin J.size} {ph : Phase J} (h : AtPhase s p ph)
    (bytes : List UInt8) : AtPhase s p (ph.receive bytes) := by
  cases ph with
  | idle | getting => exact h
  | calling f =>
    intro hc
    cases h hc with
    | before pre r a tail h₁ h₂ h₃ h₄ => exact .before pre r a tail h₁ h₂ h₃ h₄
    | after id a h₁ h₂ h₃ => exact .after id a h₁ h₂ h₃

theorem Inv.next (hflush : ∀ p, (J.env p).cfg.endToEndFlush = true) {s t : State J} {a : Step J}
    (h : Inv s) (hn : next s a = some t) : Inv t := by
  cases a with
  | call p c =>
    simp only [Rmw.next] at hn
    split at hn
    · rename_i acts _ hrun
      cases hn
      exact h.update (.of_eq rfl rfl (List.prefix_refl _)) _ rfl rfl rfl (sound_call hflush hrun)
    · cases hn
  | act p =>
    simp only [Rmw.next] at hn
    split at hn
    · rename_i f hp
      exact h.act hp hn
    · cases hn
  | fetch x bytes =>
    simp only [Rmw.next, Option.ite_none_right_eq_some, Option.some.injEq] at hn
    obtain ⟨-, rfl⟩ := hn
    have hkeeps := Keeps.fetch (s := s) (x := x)
      (Function.update s.phase x.origin ((s.phase x.origin).receive bytes))
    exact h.update hkeeps _ rfl rfl rfl
      (((h.phase x.origin).mono hkeeps (List.Subset.refl _)).receive _)
  | land x =>
    simp only [Rmw.next, Option.ite_none_right_eq_some, Option.some.injEq] at hn
    obtain ⟨-, rfl⟩ := hn
    have hkeeps := Keeps.land (s := s) (x := x)
    exact ⟨fun q => (h.phase q).mono hkeeps (List.Subset.refl _),
      fun d hd hc => hkeeps.landed (h.returned d hd hc), h.gets⟩
  | get p loc n =>
    simp only [Rmw.next] at hn
    split at hn
    · cases hn
      exact h.update (.of_eq rfl rfl (List.prefix_refl _)) _ rfl rfl rfl fun d hd => hd
    · cases hn
  | read p =>
    simp only [Rmw.next] at hn
    split at hn
    · rename_i loc n since hp
      cases hn
      have hsince : ∀ d ∈ since, d ∈ s.returned := by
        have := h.phase p
        rwa [hp] at this
      refine ⟨h.phases (.of_eq rfl rfl (List.prefix_refl _)) (List.Subset.refl _) rfl trivial,
        h.returned, fun g hg => ?_⟩
      rcases List.mem_append.mp hg with hg | hg
      · exact h.gets g hg
      · rw [List.mem_singleton.mp hg]
        exact fun d hd hc => h.returned d (hsince d hd) hc
    · cases hn

theorem inv_of_reachable (hflush : ∀ p, (J.env p).cfg.endToEndFlush = true) {s : State J}
    (hs : (system J).Reachable s) : Inv s := by
  refine hs.invariant (I := Inv) ?_ fun s a t _ h hn => h.next hflush hn
  rintro s ⟨m, rfl⟩
  exact ⟨fun _ => trivial, fun d hd => absurd hd List.not_mem_nil,
    fun g hg => absurd hg List.not_mem_nil⟩

-- ------------------------------
-- Left to the wait
-- ------------------------------

/-- What a call does that `MPI_Wait` alone completes. -/
theorem acts_of_not_flushed {p : Fin J.size} {c : RmwCall} {acts : List RmwAct}
    (hc : ¬ Flushed J p c) (hrun : c.run (J.env p) (J.atomics p) [] = (.ok (), acts)) :
    ∃ a, acts = [.operand c.op.type c.value, .atomic true a, .wait, .store c.op.type c.ploc] := by
  obtain ⟨a, -, hop, rfl⟩ := parmciRmw_eq_ok hrun
  obtain ⟨huse, hreq, hswap⟩ : (J.atomics p).useRequestAtomics = true ∧
      (J.atomics p).flushRequestAtomics = false ∧ c.op.isSwap = false := by
    simpa [Flushed, not_or] using hc
  have hsum : a.op ≠ .replace := by
    rw [Ne, RmwOp.rop_replace hop, hswap]
    decide
  refine ⟨a, ?_⟩
  simp [rmwActs, operandAct, completion, huse, hreq, hswap, hsum]

def solo (m : Mem) (p : Fin J.size) (f : Frame) (log : List (Change J)) (count : Nat)
    (issued fetched : List (Flight J)) : State J :=
  ⟨m, log, count, issued, fetched, Function.update (fun _ => .idle) p (.calling f), [], []⟩

theorem exists_unlanded {p : Fin J.size} {c : RmwCall} {acts : List RmwAct}
    (hc : ¬ Flushed J p c) (hrun : c.run (J.env p) (J.atomics p) [] = (.ok (), acts)) (m : Mem) :
    ∃ s, (system J).Reachable s ∧ s.initial = m ∧ s.phase = (fun _ => .idle) ∧
      s.returned = [⟨p, c, 0⟩] ∧ s.gets = [] ∧ ∃ bytes, s.log = [.stored (p, c.ploc) bytes] := by
  obtain ⟨a, rfl⟩ := acts_of_not_flushed hc hrun
  let bytes : List UInt8 := leBytes c.op.type.size (c.value % 256 ^ c.op.type.size).toNat
  let x : Flight J := ⟨0, p, a, bytes⟩
  let old : List UInt8 := bytesAt m a.loc a.type.size
  let store : RmwAct := .store c.op.type c.ploc
  have h₁ : next (start J m) (.call p c) = some (solo m p
      ⟨c, [.operand c.op.type c.value, .atomic true a, .wait, store], [], [], none, 0⟩
      [] 0 [] []) := by
    simp [next, start, hrun, State.setPhase, solo, store]
  have h₂ : next (solo m p ⟨c, [.operand c.op.type c.value, .atomic true a, .wait, store], [], [],
      none, 0⟩ [] 0 [] []) (.act p) =
      some (solo m p ⟨c, [.atomic true a, .wait, store], bytes, [], none, 0⟩ [] 0 [] []) := by
    simp [next, solo, State.act, State.ready, State.effect, State.frameAfter, State.setPhase, bytes]
  have h₃ : next (solo m p ⟨c, [.atomic true a, .wait, store], bytes, [], none, 0⟩ [] 0 [] [])
      (.act p) = some (solo m p ⟨c, [.wait, store], bytes, [], some 0, 0⟩ [] 1 [x] []) := by
    simp [next, solo, State.act, State.ready, State.effect, State.frameAfter, State.setPhase, x]
  have h₄ : next (solo m p ⟨c, [.wait, store], bytes, [], some 0, 0⟩ [] 1 [x] []) (.fetch x old) =
      some (solo m p ⟨c, [.wait, store], bytes, old, some 0, 0⟩ [] 1 [] [x]) := by
    simp [next, solo, Phase.receive, x, old]
  have h₅ : next (solo m p ⟨c, [.wait, store], bytes, old, some 0, 0⟩ [] 1 [] [x]) (.act p) =
      some (solo m p ⟨c, [store], bytes, old, some 0, 0⟩ [] 1 [] [x]) := by
    simp [next, solo, State.act, State.ready, State.effect, State.frameAfter, State.setPhase]
  have h₆ : next (solo m p ⟨c, [store], bytes, old, some 0, 0⟩ [] 1 [] [x]) (.act p) =
      some (solo m p ⟨c, [], bytes, old, some 0, 0⟩ [.stored (p, c.ploc) old] 1 [] [x]) := by
    simp [next, solo, State.act, State.ready, State.effect, State.frameAfter, State.setPhase, store]
  have h₇ : next (solo m p ⟨c, [], bytes, old, some 0, 0⟩ [.stored (p, c.ploc) old] 1 [] [x])
      (.act p) =
      some ⟨m, [.stored (p, c.ploc) old], 1, [], [x], fun _ => .idle, [⟨p, c, 0⟩], []⟩ := by
    simp [next, solo, State.act, State.setPhase]
  have hstep : ∀ {s t a}, (system J).Reachable s → next s a = some t → (system J).Reachable t :=
    fun hs hn => .step hs hn
  exact ⟨_, hstep (hstep (hstep (hstep (hstep (hstep (hstep (.init ⟨m, rfl⟩) h₁) h₂) h₃) h₄) h₅) h₆)
    h₇, rfl, rfl, rfl, rfl, old, rfl⟩

theorem exists_stale_get {p : Fin J.size} {c : RmwCall} {acts : List RmwAct}
    (hc : ¬ Flushed J p c) (hrun : c.run (J.env p) (J.atomics p) [] = (.ok (), acts)) (m : Mem)
    (q : Fin J.size) (loc : Loc) (n : Nat) :
    ∃ s, (system J).Reachable s ∧ s.initial = m ∧ s.returned = [⟨p, c, 0⟩] ∧
      ∃ bytes, s.log = [.stored (p, c.ploc) bytes] ∧ s.gets = [⟨loc, n, [⟨p, c, 0⟩], s.log⟩] := by
  obtain ⟨s, hs, hinit, hidle, hret, hgets, bytes, hlog⟩ := exists_unlanded hc hrun m
  have hget : (system J).run s [.get q loc n, .read q] =
      some { s with gets := [⟨loc, n, s.returned, s.log⟩] } := by
    simp [System.run, system, next, hidle, hgets, State.setPhase]
  exact ⟨_, hs.run hget, hinit, hret, bytes, hlog, by rw [hret]⟩

/-- The call returns; whenever it has, its update has landed, and a get that is
called afterwards reads a memory with the update. -/
structure Right (J : Job) (p : Fin J.size) (c : RmwCall) : Prop where
  returns : ∃ acts, c.run (J.env p) (J.atomics p) [] = (.ok (), acts)
  landed : ∀ s, (system J).Reachable s → ∀ d ∈ s.returned, d.origin = p → d.call = c →
    Landed s.log d.id
  seen : ∀ s, (system J).Reachable s → ∀ g ∈ s.gets, ∀ d ∈ g.since, d.origin = p → d.call = c →
    Landed g.seen d.id

/-- With `ARMCI_NO_FLUSH_LOCAL` a call of any process on memory it shares is right
unless it is a fetch-and-add with a request that is not flushed. -/
theorem rmw_visible_iff (hflush : ∀ p, (J.env p).cfg.endToEndFlush = true) {p : Fin J.size}
    {c : RmwCall} (hop : ∀ op, c.op ≠ .other op) {mreg : Gmr}
    (hlook : gmrLookup (J.env p) c.prem c.proc = .ok (some mreg)) :
    Right J p c ↔ (J.atomics p).useRequestAtomics = false ∨
      (J.atomics p).flushRequestAtomics = true ∨ c.op.isSwap = true := by
  obtain ⟨win, g, hr⟩ := gmrLookup_reaches hlook
  obtain ⟨rop, hrop⟩ : ∃ rop, c.op.rop = .ok rop := by
    cases hc : c.op with
    | other op => exact absurd hc (hop op)
    | fetchAndAdd | fetchAndAddLong | swap | swapLong => exact ⟨_, rfl⟩
  have hrun : c.run (J.env p) (J.atomics p) [] = _ := parmciRmw_ok hlook hr hrop []
  constructor
  · intro hright
    by_contra hc
    obtain ⟨s, hs, -, hret, bytes, hlog, -⟩ := exists_stale_get hc hrun (fun _ => 0) p (0, 0) 0
    obtain ⟨x, hx, -⟩ := hright.landed s hs ⟨p, c, 0⟩ (hret ▸ List.mem_cons_self) rfl rfl
    rw [hlog] at hx
    simp at hx
  · intro hc
    refine ⟨⟨_, hrun⟩, fun s hs d hd hp hcall => ?_, fun s hs g hg d hd hp hcall => ?_⟩
    · exact (inv_of_reachable hflush hs).returned d hd (hp ▸ hcall ▸ hc)
    · exact (inv_of_reachable hflush hs).gets g hg d hd (hp ▸ hcall ▸ hc)

def pairJob (cfg : AtomicSettings) : Job := ⟨2, fun p => pairEnv flushState p 0, fun _ => cfg⟩

def addFive : RmwCall := ⟨.fetchAndAdd, 16, 8192, 5, 1⟩

/-- Rank 0 has added five; a later get of rank 1 reads zero. -/
theorem add_unseen :
    (∀ p, ((pairJob ⟨true, false⟩).env p).cfg.endToEndFlush = true) ∧
      ¬ Right (pairJob ⟨true, false⟩) (0 : Fin 2) addFive ∧
      ∃ s, (system (pairJob ⟨true, false⟩)).Reachable s ∧ s.initial = (fun _ => 0) ∧
        s.returned = [⟨(0 : Fin 2), addFive, 0⟩] ∧ ¬ Landed s.log 0 ∧
        ∃ g ∈ s.gets, g.since = [⟨(0 : Fin 2), addFive, 0⟩] ∧ g.loc = (1, 8192) ∧ g.n = 4 ∧
          g.data s.initial = [0, 0, 0, 0] := by
  have hc : ¬ Flushed (pairJob ⟨true, false⟩) (0 : Fin 2) addFive := by
    unfold Flushed
    decide
  obtain ⟨s, hs, hinit, hret, bytes, hlog, hgets⟩ := exists_stale_get hc rfl (fun _ => 0)
    (1 : Fin 2) (1, 8192) 4
  have hland : ¬ Landed s.log 0 := by
    rw [hlog]
    rintro ⟨x, hx, -⟩
    cases List.mem_singleton.mp hx
  refine ⟨fun _ => rfl, fun hright => ?_, s, hs, hinit, hret, hland, _, hgets ▸ List.mem_cons_self,
    rfl, rfl, rfl, ?_⟩
  · exact hland (hright.landed s hs ⟨(0 : Fin 2), addFive, 0⟩ (hret ▸ List.mem_cons_self) rfl rfl)
  · have hother : ∀ i : Int, ((1, 8192 + i) : Loc) ∉ block (0, 16) bytes.length := fun i hi =>
      absurd hi.1 (show ¬ (1 : Nat) = 0 by decide)
    have hbyte : ∀ i : Int, memory s.initial s.log (1, 8192 + i) = 0 := by
      intro i
      rw [hinit, hlog]
      show writeBytes (fun _ => 0) (0, 16) bytes (1, 8192 + i) = 0
      rw [writeBytes, if_neg (hother i)]
    show (List.range 4).map (fun i : Nat => memory s.initial s.log (1, 8192 + (i : Int))) = _
    simp only [hbyte]
    rfl

theorem rmw_visible_iff_swap : Right (pairJob ⟨true, false⟩) (0 : Fin 2) ⟨.swap, 16, 8192, 0, 1⟩ := by
  have hlook : gmrLookup ((pairJob ⟨true, false⟩).env (0 : Fin 2)) 8192 1 =
      .ok (some (pairRegion flushState 0)) := rfl
  exact (rmw_visible_iff (fun _ => rfl) (fun _ => RmwOp.noConfusion) hlook).mpr (.inr (.inr rfl))

end Rmw

end ArmciMpi
