import ArmciMpi.Mutex.Safety

/-!
# Bounded overtaking of the queueing mutex

A releaser looks for waiters from its right, cyclically. While a process waits,
every hand-off to another process goes to one that is strictly closer to the
waiting process on the circle, except for a hand-off that was decided before it
registered. So no more than `nproc - 1` acquisitions by others come between its
lock epoch and its own acquisition.
-/

namespace ArmciMpi.Mutex

variable {nproc : Nat} {s t : State nproc} {p q r w : Fin nproc} {μ ν : MutexId nproc}

-- ------------------------------
-- Distance on the circle
-- ------------------------------

/-- The number of places from `p` to `q`, going right. -/
def dist (p q : Fin nproc) : Nat := if p ≤ q then q - p else nproc + q - p

theorem dist_lt (p q : Fin nproc) : dist p q < nproc := by
  have := p.isLt
  have := q.isLt
  rw [dist]
  split <;> simp only [Fin.le_def] at * <;> omega

theorem dist_eq_zero : dist p q = 0 ↔ p = q := by
  have := p.isLt
  have := q.isLt
  rw [dist, Fin.ext_iff]
  split <;> simp only [Fin.le_def] at * <;> omega

theorem dist_toRight (h : i < nproc) : dist p (toRight p i) = i := by
  have := p.isLt
  have hmod : (p.val + i) % nproc = if p.val + i < nproc then p.val + i else p.val + i - nproc := by
    split
    · exact Nat.mod_eq_of_lt ‹_›
    · rw [Nat.mod_eq_sub_mod (by omega), Nat.mod_eq_of_lt (by omega)]
  simp only [dist, toRight, Fin.le_def, hmod]
  split <;> split <;> omega

theorem toRight_dist (p q : Fin nproc) : toRight p (dist p q) = q := by
  by_cases h : q = p
  · subst h
    rw [dist_eq_zero.mpr rfl]
    exact Fin.ext (Nat.mod_eq_of_lt q.isLt)
  · obtain ⟨i, -, hi, rfl⟩ := toRight_surjective h
    rw [dist_toRight hi]

/-- A process met before `q` on the way from `p` is closer to `q`. -/
theorem dist_lt_of_between (hne : w ≠ p) (h : dist p w ≤ dist p q) : dist w q < dist p q := by
  have := p.isLt
  have := q.isLt
  have := w.isLt
  have hv : w.val ≠ p.val := fun h => hne (Fin.ext h)
  simp only [dist, Fin.le_def] at h ⊢
  split at h <;> split at h <;> split <;> omega

theorem nextWaiter_first {buf : Bytes nproc} (h : nextWaiter p buf = some w) (hne : q ≠ p)
    (hq : buf q = 1) : dist p w ≤ dist p q := by
  obtain ⟨i, hi, rfl⟩ : ∃ i, (List.range' 1 (nproc - 1)).find? (fun i => buf (toRight p i) == 1) =
      some i ∧ toRight p i = w := by
    rw [nextWaiter, List.find?_map] at h
    exact Option.map_eq_some_iff.mp h
  obtain ⟨-, hmem, hbefore⟩ := List.find?_range'_eq_some.mp hi
  have hrange := List.mem_range'_1.mp hmem
  rw [dist_toRight (by omega)]
  by_contra hlt
  have hpos : dist p q ≠ 0 := fun h0 => hne (dist_eq_zero.mp h0).symm
  have hnot := hbefore (dist p q) (by omega) (by omega)
  rw [toRight_dist, hq] at hnot
  cases hnot

-- ------------------------------
-- Overtaking
-- ------------------------------

/-- The acquisitions of the mutex by others than `q` in a step. -/
def overtakers (μ : MutexId nproc) (q : Fin nproc) (s t : State nproc) : Nat :=
  Lib.count fun p => decide (p ≠ q) && !s.held μ p && t.held μ p

/-- The acquisitions of the mutex by others than `q` in a run. -/
def overtakings (μ : MutexId nproc) (q : Fin nproc) (s : State nproc) (as : List (Act nproc)) : Nat :=
  (system nproc).cost (overtakers μ q) s as

/-- `q` waits, and at most `n` others go before it: the holder is at most `n + 1` places
away from it, and a successor that was picked or notified at most `n`. -/
structure Ahead (μ : MutexId nproc) (q : Fin nproc) (s : State nproc) (n : Nat) : Prop where
  inv : Inv s
  waits : s.pc q = .waiting μ
  holder : ∀ p, s.held μ p = true → dist p q ≤ n + 1
  succ : ∀ p w, s.pc p = .sending μ w → dist w q ≤ n
  msg : ∀ m ∈ s.msgs, m.sentFor = μ → dist m.dst q ≤ n

theorem overtakers_eq_zero (h : ∀ p, t.held μ p = true → s.held μ p = true) :
    overtakers μ q s t = 0 := by
  refine Lib.count_eq_zero.mpr fun p => ?_
  cases ht : t.held μ p with
  | false => exact Bool.and_false _
  | true => simp [h p ht]

theorem overtakers_acquire (hne : p ≠ q) (hh : s.held μ p = false) :
    overtakers μ q s (s.acquire p μ) = 1 := by
  have hone : (fun r => decide (r ≠ q) && !s.held μ r && (s.acquire p μ).held μ r) =
      Function.update (fun _ => false) p true := by
    funext r
    by_cases hr : r = p
    · subst hr
      simp [hne, hh]
    · simp [hr]
  have hcount := Lib.count_update (fun _ : Fin nproc => false) p true
  rw [Lib.count_eq_zero.mpr fun _ => rfl] at hcount
  rw [overtakers, hone]
  simpa using hcount

theorem unlock_sending (hn : next s (.unlock p μ) = some t) (ht : t.pc p = .sending μ w) :
    nextWaiter p (epoch p 0 (s.window μ)).2 = some w := by
  simp only [next] at hn
  split at hn
  · rename_i hguard
    cases hn
    simp only [unlockHdl] at ht
    split at ht
    · rename_i r hr
      simp only [State.setPc_pc, if_true, Pc.sending.injEq, true_and] at ht
      exact ht ▸ hr
    · simp [hguard.1] at ht
  · cases hn

section
variable {a : Act nproc} {n : Nat}

theorem Ahead.idle_step (h : Ahead μ q s n) (ht : Inv t) (hw : t.pc q = .waiting μ)
    (hheld : ∀ p, t.held μ p = true → s.held μ p = true)
    (hsucc : ∀ p w, t.pc p = .sending μ w → dist w q ≤ n)
    (hmsg : ∀ m ∈ t.msgs, m.sentFor = μ → dist m.dst q ≤ n) :
    overtakers μ q s t ≤ n ∧ Ahead μ q t (n - overtakers μ q s t) := by
  rw [overtakers_eq_zero hheld]
  exact ⟨Nat.zero_le n, ht, hw, fun p hp => h.holder p (hheld p hp), hsucc, hmsg⟩

theorem Ahead.recv_step (h : Ahead μ q s n) (ht : Inv ((s.deliver k).acquire p μ))
    (hm : s.msgs[k]? = some m) (hfor : m.sentFor = μ) (hdst : m.dst = p) (hne : p ≠ q) :
    overtakers μ q s ((s.deliver k).acquire p μ) ≤ n ∧
      Ahead μ q ((s.deliver k).acquire p μ) (n - overtakers μ q s ((s.deliver k).acquire p μ)) := by
  subst hfor hdst
  have hwait := (h.inv.msg m (List.mem_of_getElem? hm)).1
  have hfree : ∀ r, s.held m.sentFor r = false := by
    have htok := h.inv.busy m.sentFor (h.inv.busy_iff.mpr ⟨m.dst, .inr hwait⟩)
    have hdel := tokens_deliver (ν := m.sentFor) hm
    have hsame : (s.deliver k).holders m.sentFor = s.holders m.sentFor := rfl
    refine Lib.count_eq_zero.mp (show s.holders m.sentFor = 0 from ?_)
    simp only [if_true, State.tokens] at htok hdel
    omega
  have hdist := h.msg m (List.mem_of_getElem? hm) rfl
  have hpos : dist m.dst q ≠ 0 := fun h0 => hne (dist_eq_zero.mp h0)
  have hone : overtakers m.sentFor q s ((s.deliver k).acquire m.dst m.sentFor) = 1 :=
    overtakers_acquire (s := s.deliver k) hne (hfree m.dst)
  obtain ⟨hnos, hnom⟩ := h.inv.sole_notification hm
  rw [hone]
  refine ⟨by omega, ht, ?_, fun r hr => ?_, fun r w hr => ?_, fun m' hm' hfor => ?_⟩
  · simpa [Ne.symm hne] using h.waits
  · have hrp : r = m.dst := by
      by_contra hrp
      simp [hrp, hfree r] at hr
    subst hrp
    omega
  · by_cases hrp : r = m.dst
    · simp [hrp] at hr
    · exact absurd (by simpa [hrp] using hr) (hnos r w)
  · exact absurd hfor (hnom m' hm')

theorem Ahead.step (h : Ahead μ q s n) (hrecv : ∀ k, a ≠ .recv q k) (hn : next s a = some t) :
    overtakers μ q s t ≤ n ∧ Ahead μ q t (n - overtakers μ q s t) := by
  have hdoes := next_does hn
  have ht := h.inv.step hdoes
  have hw := h.waits
  have hsucc := h.succ
  have hmsg := h.msg
  have hbyte : s.window μ q = 1 := (h.inv.byte_iff μ q).mpr (.inr hw)
  cases hdoes with
  | @wait p ν i hpc hh hne hb =>
    refine h.idle_step ht ?_ (fun r => ?_) (fun r w => ?_) (fun m => ?_) <;> grind
  | @enter p ν hpc hh hz =>
    have hqp : q ≠ p := by
      rintro rfl
      rw [hpc] at hw
      cases hw
    by_cases hν : ν = μ
    · subst hν
      have := hz q hqp
      rw [hbyte] at this
      cases this
    · refine h.idle_step ht ?_ (fun r => ?_) (fun r w => ?_) (fun m => ?_) <;> grind
  | @recv p ν k m hpc hm hd htag =>
    have hfor := (h.inv.msg m (List.mem_of_getElem? hm)).1
    rw [hd, hpc] at hfor
    obtain rfl := Pc.waiting.inj hfor
    have hne : p ≠ q := by
      rintro rfl
      exact hrecv k rfl
    by_cases hν : m.sentFor = μ
    · subst hν
      exact h.recv_step ht hm rfl hd hne
    · have hmem : ∀ m' ∈ s.msgs.eraseIdx k, m' ∈ s.msgs := fun m' => List.mem_of_mem_eraseIdx
      refine h.idle_step ht ?_ (fun r => ?_) (fun r w => ?_) (fun m => ?_) <;> grind
  | @handOff p ν w hpc hh hne hb =>
    have hqp : q ≠ p := by
      rintro rfl
      rw [hpc] at hw
      cases hw
    refine h.idle_step ht ?_ (fun r => ?_) (fun r w' hr => ?_) (fun m => ?_)
    · grind
    · grind
    · by_cases hrp : r = p
      · subst hrp
        have hpick : ν = μ ∧ w = w' := by simpa using hr
        obtain ⟨rfl, rfl⟩ := hpick
        have hfirst := nextWaiter_first (unlock_sending hn hr) hqp (by simp [epoch, hqp, hbyte])
        have := dist_lt_of_between hne hfirst
        have := h.holder r hh
        omega
      · exact hsucc r w' (by simpa [hrp] using hr)
    · grind
  | @leave p ν hpc hh hz =>
    refine h.idle_step ht ?_ (fun r => ?_) (fun r w => ?_) (fun m => ?_) <;> grind
  | @send p ν w hpc =>
    refine h.idle_step ht ?_ (fun r => ?_) (fun r w => ?_) (fun m => ?_) <;> grind

theorem ahead_of_wait (h : (system nproc).Reachable s) (hn : next s (.lock q μ) = some t)
    (hw : t.pc q = .waiting μ) : Ahead μ q t (nproc - 1) := by
  have hle : ∀ p, dist p q ≤ nproc - 1 := fun p => by
    have := dist_lt p q
    omega
  exact ⟨(reachable_inv h).step (next_does hn), hw, fun p _ => (hle p).trans (Nat.le_succ _),
    fun _ w _ => hle w, fun m _ _ => hle m.dst⟩

/-- From a lock epoch of `q` that found the mutex busy until `q` is notified, others
acquire the mutex at most `nproc - 1` times. -/
theorem overtakings_le (h : (system nproc).Reachable s) (hlock : next s (.lock q μ) = some t)
    (hbusy : t.pc q = .waiting μ) (as : List (Act nproc)) (hwaits : ∀ k, Act.recv q k ∉ as) :
    overtakings μ q t as ≤ nproc - 1 :=
  Lib.System.cost_le (Ahead μ q) (fun a => ∀ k, a ≠ .recv q k)
    (fun _ _ _ _ hb hok hn => hb.step hok hn) (ahead_of_wait h hlock hbusy)
    fun _ ha k heq => hwaits k (heq ▸ ha)

end

/-- The bound is reached: process 2 has picked process 1 when process 0 registers, and
gets the mutex once more before process 0. -/
theorem overtakings_le_reached : ∃ s t, (system 3).run .init
      [.lock 2 ⟨0, 0⟩, .lock 1 ⟨0, 0⟩, .unlock 2 ⟨0, 0⟩] = some s ∧
    next s (.lock 0 ⟨0, 0⟩) = some t ∧ 2 = overtakings ⟨0, 0⟩ 0 t
      [.send 2, .recv 1 0, .lock 2 ⟨0, 0⟩, .unlock 1 ⟨0, 0⟩, .send 1, .recv 2 0] ∧
    overtakings ⟨0, 0⟩ 0 t
      [.send 2, .recv 1 0, .lock 2 ⟨0, 0⟩, .unlock 1 ⟨0, 0⟩, .send 1, .recv 2 0] ≤ 3 - 1 := by
  have hr : (system 3).run .init
      [.lock 2 ⟨0, 0⟩, .lock 1 ⟨0, 0⟩, .unlock 2 ⟨0, 0⟩] = some _ := rfl
  refine ⟨_, _, hr, rfl, by decide, ?_⟩
  exact overtakings_le (Lib.System.Reachable.run (.init rfl) hr) rfl rfl _ (by simp)

end ArmciMpi.Mutex
