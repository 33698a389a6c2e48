import ArmciMpi.Transfer.Calls

/-!
# Location consistency

With `ARMCI_NO_FLUSH_LOCAL` every blocking call ends with a full flush or is a
plain copy, so that nothing is in flight between the calls of a process.
`get_program_order` says that a get then delivers what the calls before it make
of the target memory when each of them takes place at once (`inOrder`), in
every run, whatever method the calls use and when ever MPI applies the
operations before the flush that completes them.
-/

namespace ArmciMpi

open Lib Script

def inOrder (me proc : Nat) (calls : List Call) (m : Mem) : Mem :=
  calls.foldl (fun m c => Xfer.applyAll (effects me proc c.transfers) m) m

theorem inOrder_eq (me proc : Nat) (calls : List Call) (m : Mem) :
    inOrder me proc calls m = Xfer.applyAll (effects me proc (calls.flatMap Call.transfers)) m := by
  induction calls generalizing m with
  | nil => rfl
  | cons c calls ih =>
    rw [List.flatMap_cons, effects, List.flatMap_append, Xfer.applyAll_append]
    exact ih _

section
variable {env : Env} {proc : Nat} {arena : Set Int} {calls : List Call}

theorem effects_get {ts : List Transfer} (hp : ∀ t ∈ ts, t.Proper env proc arena)
    (hapart : ts.Pairwise (Transfer.Apart env.me proc)) {t : Transfer} (ht : t ∈ ts)
    (hkind : t.kind = .get) {s : Int × Int} (hs : s ∈ t.segs) (m : Mem) :
    bytesAt (Xfer.applyAll (effects env.me proc ts) m) (env.me, s.1) t.bytes =
      bytesAt m (proc, s.2) t.bytes := by
  have hbase := (hp t ht).base_get (by rw [hkind]; decide)
  rw [Transfer.bytes_byte hbase]
  refine List.map_congr_left fun j hj => ?_
  have hmem : (Loc.shift (proc, s.2) (j * t.base.size), Loc.shift (env.me, s.1) (j * t.base.size)) ∈
      t.ends env.me proc := by
    refine mem_elems.mpr ⟨s, hs, j, List.mem_range.mp hj, ?_⟩
    rw [hkind]
    rfl
  have hbytes := effects_bytes hp hapart ht hmem m
  rw [hbase, hkind, (hp t ht).fill_get hkind] at hbytes
  simpa [bytesAt, RmaKind.fn, BaseType.size, Loc.shift] using hbytes

theorem run_calls_done (hflush : env.cfg.endToEndFlush = true) {ts : List Transfer}
    {done rest : List Act} (hcarry : Carries env proc arena ts done) {m m' : Mem}
    {P : List (Flight Loc UInt8 Rma)}
    (hrun : Relation.ReflTransGen ProcStep (m, ⟨[], actSteps env.me (done ++ rest)⟩)
      (m', ⟨P, actSteps env.me rest⟩)) :
    Set.EqOn m' (Xfer.applyAll (effects env.me proc ts) m) (scratch env.me arena)ᶜ := by
  obtain ⟨hfree, hafter⟩ := hcarry.flushed hflush
  rw [actSteps_append] at hrun
  obtain ⟨-, rfl⟩ := run_part_done hrun hfree hafter
  exact hcarry.effect_eqOn m

/-- In a sequence of correct calls to one process, with full flushes, a get has
brought the contents that the calls before it leave in program order, in every run
up to its return; and the sequence does return. -/
theorem get_program_order (hflush : env.cfg.endToEndFlush = true) (ha : env.Allocs arena)
    (hc : ∀ c ∈ calls, c.Correct env proc arena)
    (hapart : ∀ c ∈ calls, c.transfers.Pairwise (Transfer.Apart env.me proc)) (h : List Act) :
    (FeasibleCalls env proc calls h → (runCalls env proc calls).Returns h) ∧
    ∀ acts, runCalls env proc calls h = (.ok (), acts) → ∀ pre c post, calls = pre ++ c :: post →
      ∃ done during rest, runCalls env proc pre h = (.ok (), done) ∧
        c.run env proc (h ++ done) = (.ok (), during) ∧
        runCalls env proc post (h ++ done ++ during) = (.ok (), rest) ∧
        acts = done ++ during ++ rest ∧
        ∀ m m' P, Relation.ReflTransGen ProcStep (m, ⟨[], actSteps env.me acts⟩)
            (m', ⟨P, actSteps env.me rest⟩) →
          Set.EqOn m' (inOrder env.me proc (pre ++ [c]) m) (scratch env.me arena)ᶜ ∧
          ∀ t ∈ c.transfers, t.kind = .get → ∀ s ∈ t.segs, bytesAt m' (env.me, s.1) t.bytes =
            bytesAt (inOrder env.me proc pre m) (proc, s.2) t.bytes := by
  refine ⟨fun hf => runCalls_returns ha hc hf, ?_⟩
  rintro acts hrun pre c post rfl
  obtain ⟨done, during, rest, hpre, hcall, hpost, rfl⟩ := forEach_split hrun
  have hmem : c ∈ pre ++ c :: post := List.mem_append_right pre List.mem_cons_self
  have hcorrect := hc c hmem
  have hcarry := (runCalls_carries ha (fun c' hc' => hc c' (List.mem_append_left _ hc')) hpre).append
    (Call.carries ha hcorrect hcall)
  refine ⟨done, during, rest, hpre, hcall, hpost, rfl, fun m m' P hsteps => ?_⟩
  have hmemory := run_calls_done hflush hcarry hsteps
  have hsplit : Xfer.applyAll (effects env.me proc (pre.flatMap Call.transfers ++ c.transfers)) m =
      Xfer.applyAll (effects env.me proc c.transfers) (inOrder env.me proc pre m) := by
    rw [effects, List.flatMap_append, Xfer.applyAll_append, inOrder_eq]
    rfl
  rw [hsplit] at hmemory
  refine ⟨?_, fun t ht hkind s hs => ?_⟩
  · rw [inOrder, List.foldl_append]
    exact hmemory
  · rw [bytesAt_congr (hmemory.mono ((hcorrect.proper t ht).user s hs))]
    exact effects_get hcorrect.proper (hapart c hmem) ht hkind hs _

end

def putGet : List Call := [.put 64 8192 4, .get 8192 128 4]

def flushState : GlobalState := { defaultState with endToEndFlush := true }

theorem putGet_correct : ∀ c ∈ putGet, c.Correct (pairEnv flushState 0 0) 1 highArena := by
  have hholds : (pairRegion flushState 0).Holds 1 8192 4 := ⟨by decide, by decide, by decide⟩
  have hget : (getTransfer 8192 128 4).Proper (pairEnv flushState 0 0) 1 highArena :=
    single_proper (by decide) (.inr rfl) (by decide) (by decide) (by decide) (fun _ h => h)
      fun _ => rfl
  refine List.forall_mem_cons.mpr ⟨?_, List.forall_mem_singleton.mpr ⟨trivial, ?_, ?_⟩⟩
  · exact pairEnv_put flushState 0 (by decide) (by decide) (by decide) (by decide) (by decide)
      (by decide)
  · exact List.forall_mem_singleton.mpr hget
  · exact List.forall_mem_singleton.mpr ⟨_, rfl, List.forall_mem_singleton.mpr hholds⟩

theorem get_program_order_putGet :
    ∃ acts, runCalls (pairEnv flushState 0 0) 1 putGet [] = (.ok (), acts) ∧
      ∀ m m' P, Relation.ReflTransGen ProcStep (m, ⟨[], actSteps 0 acts⟩) (m', ⟨P, []⟩) →
        bytesAt m' (0, 128) 4 = bytesAt (inOrder 0 1 [.put 64 8192 4] m) (1, 8192) 4 := by
  have hflush : (pairEnv flushState 0 0).cfg.endToEndFlush = true := rfl
  obtain ⟨hret, hall⟩ := get_program_order hflush (pairEnv_allocs flushState 0 0) putGet_correct
    (List.forall_mem_cons.mpr ⟨List.pairwise_singleton _ _, List.forall_mem_singleton.mpr
      (List.pairwise_singleton _ _)⟩) []
  have hno : ¬ (pairEnv flushState 0 0).cfg.UsesDatatypes := by rintro (huse | huse) <;> cases huse
  obtain ⟨_, hok⟩ := hret ⟨Call.feasible_of_not_usesDatatypes hno (by decide),
    Call.feasible_of_not_usesDatatypes hno (by decide), trivial⟩
  refine ⟨_, Prod.ext hok rfl, fun m m' P hrun => ?_⟩
  obtain ⟨_, _, rest, -, -, hrest, -, hall⟩ := hall _ (Prod.ext hok rfl) [.put 64 8192 4]
    (.get 8192 128 4) [] rfl
  cases hrest
  exact (hall m m' P hrun).2 _ List.mem_cons_self rfl (128, 8192) List.mem_cons_self

end ArmciMpi
