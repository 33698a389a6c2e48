import ArmciMpi.Lib.Parts

/-!
# A process among others

Other processes, and transfers a process has in flight from before, are of no
concern to what the process does as long as they do not write to the locations
it uses. `run_isolated` takes the process out of a run of a system: on these
locations the memory is that of a run of the process alone.
-/

namespace Lib

variable {L V K : Type}

theorem Xfer.hold_congr (x : Xfer L V) {a a' : L → V} (h : Set.EqOn a a' x.src) :
    x.hold a = x.hold a' := by
  have hrun : (fun (_ b : L → V) => x.run a b) = fun _ b => x.run a' b :=
    funext fun _ => funext fun b => x.source a a' b h
  simp only [Xfer.hold, hrun]

theorem Xfer.apply_congr {x : Xfer L V} {s : Set L} (hx : x.src ⊆ s ∧ x.dst ⊆ s) {m n : L → V}
    (hm : Set.EqOn m n s) : Set.EqOn (x.apply m) (x.apply n) s := by
  have hall : ∀ y ∈ [x], y.src ⊆ s ∧ y.dst ⊆ s := by simpa using hx
  exact applyAll_congr hall hm

section
variable {X : Set L} {m m' n : L → V}

theorem Proc.Steps.congr {p p' : Proc L V K} (h : Proc.Steps m p m' p')
    (hX : ∀ x ∈ p.xfers, x.src ⊆ X ∧ x.dst ⊆ X) (hm : Set.EqOn m n X) :
    ∃ n', Proc.Steps n p n' p' ∧ Set.EqOn m' n' X := by
  cases h with
  | now P x s => exact ⟨_, .now P x s, Xfer.apply_congr (hX x (by simp [Proc.xfers])) hm⟩
  | issue P key fetch xs s => exact ⟨_, .issue P key fetch xs s, hm⟩
  | wait P full loc s hpass => exact ⟨_, .wait P full loc s hpass, hm⟩
  | read P p Q s hp =>
    have hsrc : p.x.src ⊆ X := (hX p.x (by simp [Proc.xfers])).1
    have heq : p.hold m = p.hold n := by
      rw [Flight.hold, Flight.hold, p.x.hold_congr (hm.mono hsrc)]
    exact ⟨n, heq ▸ .read P p Q s hp, hm⟩
  | write P p Q s hp =>
    exact ⟨_, .write P p Q s hp, Xfer.apply_congr (hX p.x (by simp [Proc.xfers])) hm⟩

theorem Proc.Steps.within {p p' : Proc L V K} (h : Proc.Steps m p m' p')
    (hX : ∀ x ∈ p.xfers, x.src ⊆ X ∧ x.dst ⊆ X) : ∀ x ∈ p'.xfers, x.src ⊆ X ∧ x.dst ⊆ X := by
  intro x' hx'
  obtain ⟨x, hx, rfl | ⟨a, rfl⟩⟩ := h.xfers_of x' hx'
  · exact hX x' hx
  · exact ⟨Set.empty_subset X, (hX x hx).2⟩

theorem Proc.Steps.off {p p' : Proc L V K} (h : Proc.Steps m p m' p')
    (hX : ∀ x ∈ p.xfers, Disjoint x.dst X) : ∀ x ∈ p'.xfers, Disjoint x.dst X := by
  intro x' hx'
  obtain ⟨x, hx, rfl | ⟨a, rfl⟩⟩ := h.xfers_of x' hx'
  · exact hX x' hx
  · exact hX x hx

/-- A step of a process with flights from before is a step on one of these, or a step
without them. -/
theorem Proc.Steps.split {P Q : List (Flight L V K)} {r : List (Step L V K)} {p' : Proc L V K}
    (h : Proc.Steps m ⟨P ++ Q, r⟩ m' p') (hP : ∀ q ∈ P, Disjoint q.x.dst X) :
    (∃ P', p' = ⟨P' ++ Q, r⟩ ∧ (∀ q ∈ P', Disjoint q.x.dst X) ∧ Set.EqOn m' m X) ∨
      ∃ Q' r', p' = ⟨P ++ Q', r'⟩ ∧ Proc.Steps m ⟨Q, r⟩ m' ⟨Q', r'⟩ := by
  generalize hpool : P ++ Q = pool at h
  cases h with
  | now _ x s =>
    subst hpool
    exact .inr ⟨Q, s, rfl, .now Q x s⟩
  | issue _ key fetch xs s =>
    subst hpool
    exact .inr ⟨Q ++ flights key fetch xs, s, by rw [List.append_assoc], .issue Q key fetch xs s⟩
  | wait _ full loc s hpass =>
    subst hpool
    exact .inr ⟨Q, s, rfl, .wait Q full loc s fun p hp => hpass p (List.mem_append_right P hp)⟩
  | read A p B s hp =>
    rcases List.append_eq_append_iff.mp hpool with ⟨C, rfl, rfl⟩ | ⟨C, rfl, hC⟩
    · exact .inr ⟨_, _, by rw [List.append_assoc], .read C p B r hp⟩
    · cases C with
      | nil =>
        obtain rfl : p :: B = Q := hC
        exact .inr ⟨p.hold m :: B, r, by rw [List.append_nil], .read [] p B r hp⟩
      | cons q C =>
        obtain ⟨rfl, rfl⟩ := List.cons.inj hC
        refine .inl ⟨A ++ p.hold m :: C, by simp, fun q hq => ?_, fun _ _ => rfl⟩
        rcases List.mem_append.mp hq with hq | hq
        · exact hP q (List.mem_append_left _ hq)
        · rcases List.mem_cons.mp hq with rfl | hq
          · exact hP p (by simp)
          · exact hP q (by simp [hq])
  | write A p B s hp =>
    rcases List.append_eq_append_iff.mp hpool with ⟨C, rfl, rfl⟩ | ⟨C, rfl, hC⟩
    · exact .inr ⟨_, _, by rw [List.append_assoc], .write C p B r hp⟩
    · cases C with
      | nil =>
        obtain rfl : p :: B = Q := hC
        exact .inr ⟨B, r, by rw [List.append_nil], .write [] p B r hp⟩
      | cons q C =>
        obtain ⟨rfl, rfl⟩ := List.cons.inj hC
        refine .inl ⟨A ++ C, by simp, fun q hq => hP q ?_, p.x.run_eqOn (hP p (by simp)) m m⟩
        exact ((List.sublist_cons_self p C).append_left A).subset hq

theorem SysStep.split {ps qs : List (Proc L V K)} {p : Proc L V K} {sys : List (Proc L V K)}
    (h : SysStep (m, ps ++ p :: qs) (m', sys)) :
    (∃ p', sys = ps ++ p' :: qs ∧ Proc.Steps m p m' p') ∨
      ∃ ps' qs', sys = ps' ++ p :: qs' ∧ ∃ o ∈ ps ++ qs, ∃ o', Proc.Steps m o m' o' ∧
        ∀ q ∈ ps' ++ qs', q = o' ∨ q ∈ ps ++ qs := by
  generalize hall : ps ++ p :: qs = all at h
  obtain ⟨_, _, A, o, o', B, hstep⟩ := h
  rcases List.append_eq_append_iff.mp hall with ⟨C, rfl, hC⟩ | ⟨C, rfl, hC⟩
  · cases C with
    | nil =>
      obtain ⟨rfl, rfl⟩ := List.cons.inj hC
      exact .inl ⟨o', by rw [List.append_nil], hstep⟩
    | cons q C =>
      obtain ⟨rfl, rfl⟩ : p = q ∧ qs = C ++ o :: B := List.cons.inj hC
      refine .inr ⟨ps, C ++ o' :: B, by simp, o, by simp, o', hstep, fun q hq => ?_⟩
      simp only [List.mem_append, List.mem_cons] at hq ⊢
      tauto
  · cases C with
    | nil =>
      obtain ⟨rfl, rfl⟩ := List.cons.inj hC
      exact .inl ⟨o', by rw [List.append_nil], hstep⟩
    | cons q C =>
      obtain ⟨rfl, rfl⟩ := List.cons.inj hC
      refine .inr ⟨A ++ o' :: C, qs, by simp, o, by simp, o', hstep, fun q hq => ?_⟩
      simp only [List.mem_append, List.mem_cons] at hq ⊢
      tauto

/-- A run of a system in which nothing else writes where a process works is a run of
the process alone, as far as the memory there is concerned. -/
theorem run_isolated {ps qs sys : List (Proc L V K)} {P Q : List (Flight L V K)}
    {r : List (Step L V K)}
    (h : Relation.ReflTransGen SysStep (m, ps ++ ⟨P ++ Q, r⟩ :: qs) (m', sys))
    (hown : ∀ x ∈ (⟨Q, r⟩ : Proc L V K).xfers, x.src ⊆ X ∧ x.dst ⊆ X)
    (hbefore : ∀ q ∈ P, Disjoint q.x.dst X)
    (hothers : ∀ q ∈ ps ++ qs, ∀ x ∈ q.xfers, Disjoint x.dst X) (hm : Set.EqOn m n X) :
    ∃ n' p', Relation.ReflTransGen ProcStep (n, ⟨Q, r⟩) (n', p') ∧ Set.EqOn m' n' X := by
  generalize hinit : (m, ps ++ (⟨P ++ Q, r⟩ : Proc L V K) :: qs) = init at h
  induction h using Relation.ReflTransGen.head_induction_on generalizing m n ps qs P Q r with
  | refl =>
    cases hinit
    exact ⟨n, _, .refl, hm⟩
  | @head a b hstep _ ih =>
    subst hinit
    obtain ⟨mb, sysb⟩ := b
    rcases hstep.split with ⟨p', rfl, hself⟩ | ⟨ps', qs', rfl, o, ho, o', hother, hmem⟩
    · rcases hself.split hbefore with ⟨P', rfl, hP', heq⟩ | ⟨Q', r', rfl, hown'⟩
      · exact ih hown hP' hothers (heq.trans hm) rfl
      · obtain ⟨nb, hsame, hmb⟩ := hown'.congr hown hm
        obtain ⟨n', p', hrun, hm'⟩ := ih (hown'.within hown) hbefore hothers hmb rfl
        exact ⟨n', p', .head (show ProcStep (n, ⟨Q, r⟩) (nb, ⟨Q', r'⟩) from hsame) hrun, hm'⟩
    · refine ih hown hbefore (fun q hq => ?_) ((hother.frame (hothers o ho)).trans hm) rfl
      rcases hmem q hq with rfl | hq
      · exact hother.off (hothers o ho)
      · exact hothers q hq

end

end Lib
