import ArmciMpi.Mutex.Queue

/-!
# Safety of the queueing mutex

The right to a mutex is a token that is in one of three places: with a
holder, with a releaser that picked its successor and has not sent yet, or in
a notification in flight. The invariant says that there is one token while
some byte is set and none otherwise, and that a byte is set exactly for the
holder and the waiters. A waiter is blocked in one call only, so a
notification addressed to it is for the mutex it waits for, although the tag
does not name the host.
-/

namespace ArmciMpi.Mutex

variable {nproc : Nat} {s t : State nproc} {p q r : Fin nproc} {μ ν : MutexId nproc}

/-- A releaser of `μ` between its epoch and its send. -/
def Pc.sends (μ : MutexId nproc) : Pc nproc → Bool
  | .sending ν _ => decide (ν = μ)
  | _ => false

@[simp] theorem sends_idle : (Pc.idle : Pc nproc).sends μ = false := rfl
@[simp] theorem sends_waiting : (Pc.waiting ν).sends μ = false := rfl
@[simp] theorem sends_sending : (Pc.sending ν q).sends μ = decide (ν = μ) := rfl

def State.holders (s : State nproc) (μ : MutexId nproc) : Nat := Lib.count (s.held μ)

def State.releasers (s : State nproc) (μ : MutexId nproc) : Nat :=
  Lib.count fun p => (s.pc p).sends μ

def State.notifications (s : State nproc) (μ : MutexId nproc) : Nat :=
  s.msgs.countP fun m => decide (m.sentFor = μ)

def State.tokens (s : State nproc) (μ : MutexId nproc) : Nat :=
  s.holders μ + s.releasers μ + s.notifications μ

def State.Busy (s : State nproc) (μ : MutexId nproc) : Prop := ∃ p, s.window μ p ≠ 0

/-- A byte is set for the holder and for the waiters; a picked successor and
the addressee of a notification are waiters. -/
structure Placed (s : State nproc) : Prop where
  byte_iff : ∀ μ p, s.window μ p = 1 ↔ s.held μ p = true ∨ s.pc p = .waiting μ
  byte_zero : ∀ μ p, s.window μ p ≠ 1 → s.window μ p = 0
  apart : ∀ μ p, s.held μ p = true → s.pc p ≠ .waiting μ
  succ : ∀ p μ q, s.pc p = .sending μ q → s.pc q = .waiting μ
  msg : ∀ m ∈ s.msgs, s.pc m.dst = .waiting m.sentFor ∧ m.tag = mutexTag + m.sentFor.num

structure Inv (s : State nproc) : Prop extends Placed s where
  busy : ∀ μ, s.Busy μ → s.tokens μ = 1
  free : ∀ μ, ¬ s.Busy μ → s.tokens μ = 0

-- ------------------------------
-- The token count under the state updates
-- ------------------------------

@[simp] theorem tokens_setWindow : (s.setWindow μ w).tokens ν = s.tokens ν := rfl

theorem releasers_update (f : Fin nproc → Pc nproc) (p : Fin nproc) (c : Pc nproc) :
    Lib.count (fun r => (Function.update f p c r).sends ν) + ((f p).sends ν).toNat =
      Lib.count (fun r => (f r).sends ν) + (c.sends ν).toNat := by
  have h : (fun r => (Function.update f p c r).sends ν) =
      Function.update (fun r => (f r).sends ν) p (c.sends ν) :=
    Function.comp_update (Pc.sends ν) f p c
  rw [h]
  exact Lib.count_update _ p (c.sends ν)

theorem holders_update (f : MutexId nproc → Fin nproc → Bool) (p : Fin nproc) (b : Bool) :
    Lib.count (Function.update f μ (Function.update (f μ) p b) ν) +
        (if ν = μ then (f μ p).toNat else 0) =
      Lib.count (f ν) + if ν = μ then b.toNat else 0 := by
  by_cases h : ν = μ
  · subst h
    simpa using Lib.count_update (f ν) p b
  · simp [h]

theorem tokens_setPc : (s.setPc p c).tokens ν + ((s.pc p).sends ν).toNat =
    s.tokens ν + (c.sends ν).toNat := by
  have := releasers_update (ν := ν) s.pc p c
  simp only [State.tokens, State.holders, State.releasers, State.notifications, State.setPc]
  omega

theorem tokens_acquire (hpc : (s.pc p).sends ν = false) (hh : s.held μ p = false) :
    (s.acquire p μ).tokens ν = s.tokens ν + if ν = μ then 1 else 0 := by
  have h1 := releasers_update (ν := ν) s.pc p .idle
  have h2 := holders_update (μ := μ) (ν := ν) s.held p true
  rw [hpc] at h1
  simp only [hh, sends_idle, Bool.toNat_false, Bool.toNat_true, ite_self] at h1 h2
  simp only [State.tokens, State.holders, State.releasers, State.notifications, State.acquire]
  omega

theorem tokens_release (hh : s.held μ p = true) :
    (s.release p μ).tokens ν + (if ν = μ then 1 else 0) = s.tokens ν := by
  have h := holders_update (μ := μ) (ν := ν) s.held p false
  simp only [hh, Bool.toNat_false, Bool.toNat_true, ite_self] at h
  simp only [State.tokens, State.holders, State.releasers, State.notifications, State.release]
  omega

theorem tokens_post : (s.post m).tokens ν = s.tokens ν + if m.sentFor = ν then 1 else 0 := by
  simp only [State.tokens, State.holders, State.releasers, State.notifications, State.post,
    List.countP_append, List.countP_singleton, decide_eq_true_eq]
  omega

theorem tokens_deliver (hm : s.msgs[k]? = some m) :
    (s.deliver k).tokens ν + (if m.sentFor = ν then 1 else 0) = s.tokens ν := by
  obtain ⟨hk, rfl⟩ := List.getElem?_eq_some_iff.mp hm
  have hp := (List.getElem_cons_eraseIdx_perm hk).countP_eq fun m => decide (m.sentFor = ν)
  rw [List.countP_cons] at hp
  simp only [decide_eq_true_eq] at hp
  simp only [State.tokens, State.holders, State.releasers, State.notifications, State.deliver]
  omega

-- ------------------------------
-- One step
-- ------------------------------

theorem Placed.busy_iff (hi : Placed s) :
    s.Busy μ ↔ ∃ p, s.held μ p = true ∨ s.pc p = .waiting μ := by
  refine exists_congr fun p => ⟨fun h => ?_, fun h => ?_⟩
  · by_contra hn
    exact h (hi.byte_zero μ p fun h1 => hn ((hi.byte_iff μ p).mp h1))
  · rw [(hi.byte_iff μ p).mpr h]
    decide

/-- While a notification for `μ` is in flight nobody is about to send another
one, and none of the other messages is for `μ`. -/
theorem Inv.sole_notification (hi : Inv s) (hm : s.msgs[k]? = some m) :
    (∀ r q, s.pc r ≠ .sending m.sentFor q) ∧ ∀ m' ∈ s.msgs.eraseIdx k, m'.sentFor ≠ m.sentFor := by
  have hw := (hi.msg m (List.mem_of_getElem? hm)).1
  have htok := hi.busy m.sentFor (hi.busy_iff.mpr ⟨m.dst, .inr hw⟩)
  have hrest := tokens_deliver (ν := m.sentFor) hm
  simp only [if_true, State.tokens] at htok hrest
  constructor
  · intro r q hr
    have hpos : 0 < s.releasers m.sentFor :=
      Lib.count_pos (i := r) (by simp [hr])
    have hsame : (s.deliver k).releasers m.sentFor = s.releasers m.sentFor := rfl
    omega
  · intro m' hm' he
    have hpos : 0 < (s.deliver k).notifications m.sentFor :=
      List.countP_pos_iff.mpr ⟨m', hm', by simpa using he⟩
    omega

theorem Inv.sole_holder (hi : Inv s) (hp : s.held μ p = true) (hq : s.held μ q = true) : q = p := by
  have htok := hi.busy μ (hi.busy_iff.mpr ⟨p, .inl hp⟩)
  refine Lib.eq_of_count_le_one (f := s.held μ) ?_ hq hp
  simp only [State.tokens, State.holders] at htok
  omega

theorem Inv.placed_step (hi : Inv s) (h : Does s a t) : Placed t := by
  obtain ⟨⟨hiff, hzero, hap, hsucc, hmsg⟩, -, -⟩ := id hi
  cases h with
  | wait hpc hh hne hb =>
    refine ⟨fun ν q => ?_, fun ν q => ?_, fun ν q => ?_, fun q ν q' => ?_, fun m hm => ?_⟩ <;> grind
  | enter hpc hh hz =>
    refine ⟨fun ν q => ?_, fun ν q => ?_, fun ν q => ?_, fun q ν q' => ?_, fun m hm => ?_⟩ <;> grind
  | @recv p μ k m hpc hm hd ht =>
    have hw := (hmsg m (List.mem_of_getElem? hm)).1
    obtain rfl : μ = m.sentFor := by
      rw [hd, hpc] at hw
      exact Pc.waiting.inj hw
    obtain ⟨hnos, hnom⟩ := hi.sole_notification hm
    have hmem : ∀ m' ∈ s.msgs.eraseIdx k, m' ∈ s.msgs := fun m' => List.mem_of_mem_eraseIdx
    refine ⟨fun ν q => ?_, fun ν q => ?_, fun ν q => ?_, fun q ν q' => ?_, fun m hm => ?_⟩ <;> grind
  | @handOff p μ q hpc hh hne hb =>
    have hq : s.pc q = .waiting μ :=
      ((hiff μ q).mp hb).resolve_left fun h => hne (hi.sole_holder hh h)
    refine ⟨fun ν q => ?_, fun ν q => ?_, fun ν q => ?_, fun q ν q' => ?_, fun m hm => ?_⟩ <;> grind
  | leave hpc hh hz =>
    refine ⟨fun ν q => ?_, fun ν q => ?_, fun ν q => ?_, fun q ν q' => ?_, fun m hm => ?_⟩ <;> grind
  | send hpc =>
    refine ⟨fun ν q => ?_, fun ν q => ?_, fun ν q => ?_, fun q ν q' => ?_, fun m hm => ?_⟩ <;> grind

def State.Balanced (s : State nproc) (μ : MutexId nproc) : Prop :=
  (s.Busy μ ∧ s.tokens μ = 1) ∨ (¬ s.Busy μ ∧ s.tokens μ = 0)

theorem Inv.balanced (hi : Inv s) (μ : MutexId nproc) : s.Balanced μ := by
  by_cases h : s.Busy μ
  · exact .inl ⟨h, hi.busy μ h⟩
  · exact .inr ⟨h, hi.free μ h⟩

theorem Placed.inv (hp : Placed s) (h : ∀ μ, s.Balanced μ) : Inv s := by
  refine ⟨hp, fun μ hb => ?_, fun μ hb => ?_⟩
  · exact (h μ).elim And.right fun h => absurd hb h.1
  · exact (h μ).elim (fun h => absurd h.1 hb) And.right

theorem State.Balanced.congr (h : s.Balanced ν) (hw : ∀ p, t.window ν p = s.window ν p)
    (ht : t.tokens ν = s.tokens ν) : t.Balanced ν := by
  have hb : t.Busy ν ↔ s.Busy ν := exists_congr fun p => by rw [hw]
  unfold State.Balanced
  rw [hb, ht]
  exact h

theorem balanced_wait (hi : Inv s) (hpc : s.pc p = .idle) (hb : s.window μ r ≠ 0) :
    ((s.setWindow μ (Function.update (s.window μ) p 1)).setPc p (.waiting μ)).Balanced ν := by
  have htok := tokens_setPc (s := s.setWindow μ (Function.update (s.window μ) p 1)) (p := p)
    (c := .waiting μ) (ν := ν)
  simp only [State.setWindow_pc, hpc, sends_idle, sends_waiting, tokens_setWindow] at htok
  by_cases hν : ν = μ
  · subst hν
    exact .inl ⟨⟨p, by simp⟩, by have := hi.busy ν ⟨r, hb⟩; omega⟩
  · exact (hi.balanced ν).congr (by simp [hν]) (by omega)

theorem balanced_enter (hi : Inv s) (hpc : s.pc p = .idle) (hh : s.held μ p = false)
    (hz : ∀ i, i ≠ p → s.window μ i = 0) :
    ((s.setWindow μ (Function.update (s.window μ) p 1)).acquire p μ).Balanced ν := by
  have htok := tokens_acquire (s := s.setWindow μ (Function.update (s.window μ) p 1)) (p := p)
    (μ := μ) (ν := ν) (by simp [hpc]) (by simpa using hh)
  rw [tokens_setWindow] at htok
  by_cases hν : ν = μ
  · subst hν
    have hfree : ¬ s.Busy ν := by
      rintro ⟨i, hi'⟩
      by_cases hip : i = p
      · subst hip
        exact hi' (hi.byte_zero ν i fun h => by simpa [hh, hpc] using (hi.byte_iff ν i).mp h)
      · exact hi' (hz i hip)
    refine .inl ⟨⟨p, by simp⟩, ?_⟩
    simp only [if_true, hi.free ν hfree] at htok
    exact htok
  · exact (hi.balanced ν).congr (by simp [hν]) (by simpa [hν] using htok)

theorem balanced_recv (hi : Inv s) (hpc : s.pc p = .waiting m.sentFor)
    (hm : s.msgs[k]? = some m) : ((s.deliver k).acquire p m.sentFor).Balanced ν := by
  have hh : s.held m.sentFor p = false := by
    cases h : s.held m.sentFor p
    · rfl
    · exact absurd hpc (hi.apart _ p h)
  have hacq := tokens_acquire (s := s.deliver k) (p := p) (μ := m.sentFor) (ν := ν)
    (by simp [hpc]) (by simpa using hh)
  have hdel := tokens_deliver (ν := ν) hm
  refine (hi.balanced ν).congr (by simp) ?_
  simp only [eq_comm (a := ν)] at hacq
  omega

theorem balanced_handOff (hi : Inv s) (hpc : s.pc p = .idle) (hh : s.held μ p = true)
    (hne : q ≠ p) (hb : s.window μ q = 1) :
    (((s.setWindow μ (Function.update (s.window μ) p 0)).release p μ).setPc p
      (.sending μ q)).Balanced ν := by
  have hrel := tokens_release (s := s.setWindow μ (Function.update (s.window μ) p 0)) (p := p)
    (μ := μ) (ν := ν) (by simpa using hh)
  have htok := tokens_setPc (s := (s.setWindow μ (Function.update (s.window μ) p 0)).release p μ)
    (p := p) (c := .sending μ q) (ν := ν)
  simp only [tokens_setWindow, State.release_pc, State.setWindow_pc, hpc, sends_idle,
    sends_sending] at hrel htok
  by_cases hν : ν = μ
  · subst hν
    refine .inl ⟨⟨q, by simp [hne, hb]⟩, ?_⟩
    have := hi.busy ν (hi.busy_iff.mpr ⟨p, .inl hh⟩)
    simp only [if_true, decide_true, Bool.toNat_true, Bool.toNat_false] at hrel htok
    omega
  · refine (hi.balanced ν).congr (by simp [hν]) ?_
    simp only [hν, Ne.symm hν, if_false, decide_false, Bool.toNat_false] at hrel htok
    omega

theorem balanced_leave (hi : Inv s) (hh : s.held μ p = true)
    (hz : ∀ i, i ≠ p → s.window μ i ≠ 1) :
    ((s.setWindow μ (Function.update (s.window μ) p 0)).release p μ).Balanced ν := by
  have hrel := tokens_release (s := s.setWindow μ (Function.update (s.window μ) p 0)) (p := p)
    (μ := μ) (ν := ν) (by simpa using hh)
  rw [tokens_setWindow] at hrel
  by_cases hν : ν = μ
  · subst hν
    refine .inr ⟨?_, ?_⟩
    · rintro ⟨i, hb⟩
      by_cases hip : i = p
      · simp [hip] at hb
      · exact hb (by simpa [hip] using hi.byte_zero ν i (hz i hip))
    · have := hi.busy ν (hi.busy_iff.mpr ⟨p, .inl hh⟩)
      simp only [if_true] at hrel
      omega
  · exact (hi.balanced ν).congr (by simp [hν]) (by simpa [hν] using hrel)

theorem balanced_send (hi : Inv s) (hpc : s.pc p = .sending μ q) :
    ((s.post ⟨p, q, tag, μ⟩).setPc p .idle).Balanced ν := by
  have htok := tokens_setPc (s := s.post ⟨p, q, tag, μ⟩) (p := p) (c := .idle) (ν := ν)
  have hpost := tokens_post (s := s) (m := ⟨p, q, tag, μ⟩) (ν := ν)
  refine (hi.balanced ν).congr (by simp) ?_
  simp only [State.post_pc, hpc, sends_sending, sends_idle, Bool.toNat_false] at htok
  by_cases hν : μ = ν
  · subst hν
    simp only [decide_true, Bool.toNat_true, if_true] at htok hpost
    omega
  · simp only [hν, decide_false, Bool.toNat_false, if_false] at htok hpost
    omega

theorem Inv.step (hi : Inv s) (h : Does s a t) : Inv t := by
  refine (hi.placed_step h).inv fun ν => ?_
  cases h with
  | wait hpc hh hne hb => exact balanced_wait hi hpc hb
  | enter hpc hh hz => exact balanced_enter hi hpc hh hz
  | recv hpc hm hd ht =>
    have hw := (hi.msg _ (List.mem_of_getElem? hm)).1
    rw [hd, hpc] at hw
    obtain rfl := Pc.waiting.inj hw
    exact balanced_recv hi hpc hm
  | handOff hpc hh hne hb => exact balanced_handOff hi hpc hh hne hb
  | leave hpc hh hz => exact balanced_leave hi hh hz
  | send hpc => exact balanced_send hi hpc

theorem inv_init : Inv (State.init : State nproc) := by
  have hp : Placed (State.init : State nproc) := by
    refine ⟨?_, ?_, ?_, ?_, ?_⟩ <;> simp [State.init]
  refine hp.inv fun μ => .inr ⟨by simp [State.Busy, State.init], ?_⟩
  simp [State.tokens, State.holders, State.releasers, State.notifications, State.init,
    Lib.count_eq_zero]

theorem reachable_inv (h : (system nproc).Reachable s) : Inv s :=
  h.invariant (fun _ hs => hs ▸ inv_init) fun _ _ _ _ hi hn => hi.step (next_does hn)

/-- In every reachable state and for every mutex: at most one process holds
it; while some byte is set there is one token, and a notification in flight
is addressed to a process whose byte is set; a receive by a process blocked
on it consumes a notification sent for it. -/
theorem queue_mutex_safe (h : (system nproc).Reachable s) (μ : MutexId nproc) :
    (∀ p q, s.held μ p = true → s.held μ q = true → p = q) ∧
    (s.Busy μ → s.holders μ + s.releasers μ + s.notifications μ = 1 ∧
      ∀ m ∈ s.msgs, m.sentFor = μ → s.window μ m.dst ≠ 0) ∧
    ∀ p k m t, s.pc p = .waiting μ → s.msgs[k]? = some m → next s (.recv p k) = some t →
      m.sentFor = μ := by
  have hi := reachable_inv h
  refine ⟨fun p q hp hq => hi.sole_holder hq hp, fun hb => ⟨hi.busy μ hb, ?_⟩, ?_⟩
  · rintro m hm rfl
    rw [(hi.byte_iff _ _).mpr (.inr (hi.msg m hm).1)]
    decide
  · intro p k m t hpc hm hn
    cases next_does hn with
    | recv hpc' hm' hd _ =>
      obtain rfl := Option.some.inj (hm.symm.trans hm')
      have hw := (hi.msg m (List.mem_of_getElem? hm)).1
      rw [hd, hpc] at hw
      exact (Pc.waiting.inj hw).symm

/-- Two processes contend for a mutex; the first hands it over while it holds
another mutex of the same number. -/
theorem queue_mutex_safe_handOff : ∃ s, (system 2).run .init
      [.lock 0 ⟨0, 0⟩, .lock 0 ⟨0, 1⟩, .lock 1 ⟨0, 0⟩, .unlock 0 ⟨0, 0⟩, .send 0] = some s ∧
    s.Busy ⟨0, 0⟩ ∧ s.holders ⟨0, 0⟩ + s.releasers ⟨0, 0⟩ + s.notifications ⟨0, 0⟩ = 1 := by
  have hr : (system 2).run .init
      [.lock 0 ⟨0, 0⟩, .lock 0 ⟨0, 1⟩, .lock 1 ⟨0, 0⟩, .unlock 0 ⟨0, 0⟩, .send 0] = some _ := rfl
  refine ⟨_, hr, ⟨1, by decide⟩, ?_⟩
  exact ((queue_mutex_safe (Lib.System.Reachable.run (.init rfl) hr) ⟨0, 0⟩).2.1 ⟨1, by decide⟩).1

end ArmciMpi.Mutex
