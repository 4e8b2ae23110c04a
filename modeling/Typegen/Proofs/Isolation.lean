import Typegen.Proofs.Workers

/-!
# Targets do not affect each other

A run makes every target ready under its own name, in the order of the request, and then each comes
to what it comes to alone.  A run that is stopped has not begun to work on any target.
-/

namespace Typegen.Generation

namespace Request

/-! ## Targets that are ready -/

variable {r : Request} {found ready : List Prepared} {targets : List Json} {name : String}
  {p : Prepared} {t : Json} {f : Failure}

theorem name_of_ready (h : r.ready name = .ok p) : p.name = name := by
  obtain ⟨settings, -, h⟩ := bind_eq_ok.1 h
  obtain ⟨naming, -, h⟩ := bind_eq_ok.1 h
  obtain ⟨engine, -, h⟩ := bind_eq_ok.1 h
  rw [← pure_eq_ok.1 h]

/-- The next target is ready already, or it is made ready. -/
theorem prepare_cons (r : Request) (found : List Prepared) (t : Json) (targets : List Json) :
    r.prepare found (t :: targets) = r.targetOf t >>= fun name =>
      if name ∈ found.map Prepared.name then r.prepare found targets
      else r.ready name >>= fun p => r.prepare (found ++ [p]) targets := by
  rw [prepare]
  refine congrArg (r.targetOf t >>= ·) (funext fun name => ?_)
  simp

theorem prepare_cons_eq_ok : r.prepare found (t :: targets) = .ok ready ↔
    ∃ name, r.targetOf t = .ok name ∧
      ((name ∈ found.map Prepared.name ∧ r.prepare found targets = .ok ready) ∨
        (name ∉ found.map Prepared.name ∧ ∃ p, r.ready name = .ok p ∧
          r.prepare (found ++ [p]) targets = .ok ready)) := by
  rw [prepare_cons, bind_eq_ok]
  refine exists_congr fun name => and_congr_right fun _ => ?_
  by_cases hname : name ∈ found.map Prepared.name
  · rw [if_pos hname]
    simp only [hname, true_and, not_true_eq_false, false_and, or_false]
  · rw [if_neg hname, bind_eq_ok]
    simp only [hname, false_and, not_false_eq_true, true_and, false_or]

/-- What is kept whenever another target is made ready holds of all that are ready in the end. -/
theorem invariant_of_prepare {P : List Prepared → Prop} (h : r.prepare found targets = .ok ready)
    (hfound : P found) (hnext : ∀ found p, P found → r.ready p.name = .ok p →
      p.name ∉ found.map Prepared.name → P (found ++ [p])) : P ready := by
  induction targets generalizing found with
  | nil => exact Except.ok.inj h ▸ hfound
  | cons t targets ih =>
    obtain ⟨name, -, ⟨-, h⟩ | ⟨hname, p, hp, h⟩⟩ := prepare_cons_eq_ok.1 h
    · exact ih h hfound
    · obtain rfl := name_of_ready hp
      exact ih h (hnext found p hfound hp hname)

/-- Every target is made ready once. -/
theorem nodup_names_of_prepare (h : r.prepare [] targets = .ok ready) :
    (ready.map Prepared.name).Nodup := by
  refine invariant_of_prepare (P := fun ps => (ps.map Prepared.name).Nodup) h List.nodup_nil ?_
  intro found p hfound _ hname
  rw [List.map_append, List.map_singleton]
  exact hfound.append (List.nodup_singleton _) (by simpa using hname)

theorem ready_of_prepare (h : r.prepare [] targets = .ok ready) :
    ∀ p ∈ ready, r.ready p.name = .ok p := by
  refine invariant_of_prepare (P := fun ps => ∀ p ∈ ps, r.ready p.name = .ok p) h (by simp) ?_
  intro found p hfound hp _ q hq
  rcases List.mem_append.1 hq with hq | hq
  · exact hfound q hq
  · rw [List.mem_singleton.1 hq, hp]

/-- The targets are made ready in the order in which they are first asked for. -/
theorem names_of_prepare (h : r.prepare found targets = .ok ready) :
    ∃ names, targets.mapM r.targetOf = .ok names ∧ ready.map Prepared.name =
      found.map Prepared.name ++
        (names.filter fun name => name ∉ found.map Prepared.name).eraseDups := by
  induction targets generalizing found with
  | nil => exact ⟨[], rfl, by simp [← Except.ok.inj h]⟩
  | cons t targets ih =>
    obtain ⟨name, hname, ⟨hmem, h⟩ | ⟨hmem, p, hp, h⟩⟩ := prepare_cons_eq_ok.1 h
    · obtain ⟨names, hnames, heq⟩ := ih h
      refine ⟨name :: names, mapM_eq_ok.2 (.cons hname (mapM_eq_ok.1 hnames)), ?_⟩
      rw [heq, List.filter_cons_of_neg (by simpa using hmem)]
    · obtain ⟨names, hnames, heq⟩ := ih h
      refine ⟨name :: names, mapM_eq_ok.2 (.cons hname (mapM_eq_ok.1 hnames)), ?_⟩
      rw [heq, List.filter_cons_of_pos (by simpa using hmem), List.eraseDups_cons,
        List.filter_filter, List.map_append, List.map_singleton, name_of_ready hp,
        List.append_assoc, List.singleton_append]
      have hfilter : ∀ other ∈ names, decide (other ∉ found.map Prepared.name ++ [name]) =
          (!other == name && decide (other ∉ found.map Prepared.name)) := by
        intro other _
        by_cases hother : other = name <;> simp [hother]
      rw [List.filter_congr hfilter]

theorem prepare_singleton (htarget : r.targetOf t = .ok p.name) (hp : r.ready p.name = .ok p) :
    r.prepare [] [t] = .ok [p] :=
  prepare_cons_eq_ok.2 ⟨p.name, htarget, .inr ⟨by simp, p, hp, rfl⟩⟩

/-- A target is unknown or cannot be made ready. -/
def Rejects (r : Request) (t : Json) (f : Failure) : Prop :=
  r.targetOf t = .error f ∨ ∃ name, r.targetOf t = .ok name ∧ r.ready name = .error f

theorem exists_rejects_of_prepare (h : r.prepare found targets = .error f) :
    ∃ t ∈ targets, r.Rejects t f := by
  induction targets generalizing found with
  | nil => cases h
  | cons t targets ih =>
    rw [prepare_cons, bind_eq_error] at h
    rcases h with h | ⟨name, hname, h⟩
    · exact ⟨t, List.mem_cons_self, .inl h⟩
    · split at h
      · obtain ⟨t', ht', hrejects⟩ := ih h
        exact ⟨t', List.mem_cons_of_mem _ ht', hrejects⟩
      · rcases bind_eq_error.1 h with h | ⟨p, hp, h⟩
        · exact ⟨t, List.mem_cons_self, .inr ⟨name, hname, h⟩⟩
        · obtain ⟨t', ht', hrejects⟩ := ih h
          exact ⟨t', List.mem_cons_of_mem _ ht', hrejects⟩

/-- Every target that is asked for is among those that are ready. -/
theorem exists_ready_of_mem (h : r.prepare [] targets = .ok ready) (ht : t ∈ targets) :
    ∃ p ∈ ready, r.targetOf t = .ok p.name := by
  obtain ⟨names, hnames, heq⟩ := names_of_prepare h
  obtain ⟨name, hname, htarget⟩ := exists_of_mem_left (mapM_eq_ok.1 hnames) ht
  have hmem : name ∈ ready.map Prepared.name := by
    rw [heq]
    simpa using hname
  obtain ⟨p, hp, rfl⟩ := List.mem_map.1 hmem
  exact ⟨p, hp, htarget⟩

theorem not_rejects_of_prepare (h : r.prepare [] targets = .ok ready) (ht : t ∈ targets) :
    ¬r.Rejects t f := by
  obtain ⟨p, hp, htarget⟩ := exists_ready_of_mem h ht
  have hready := ready_of_prepare h p hp
  rintro (hunknown | ⟨name, hname, hfails⟩)
  · rw [htarget] at hunknown
    cases hunknown
  · obtain rfl := Except.ok.inj (htarget.symm.trans hname)
    rw [hready] at hfails
    cases hfails

end Request

/-! ## Runs -/

/-- The outcome of a target that is worked on alone. -/
def Job.outcome (j : Job) (p : Request.Prepared) : Outcome := ⟨p.name, j.alone p⟩

theorem outcomes_runPool (j : Job) {targets : List Request.Prepared}
    (hnames : (targets.map Request.Prepared.name).Nodup) (schedule : List Nat) :
    (runPool j targets schedule).outcomes = .ok (targets.map j.outcome) := by
  have houtcomes : targets.mapM (outcomeOf (Pool.run j targets schedule).results) =
      .ok (targets.map j.outcome) := by
    rw [mapM_eq_ok, List.forall₂_map_right_iff, List.forall₂_same]
    intro p hp
    rw [outcomeOf, Pool.lookup_results_run hnames schedule hp]
    rfl
  simp only [runPool, houtcomes]

theorem trace_runPool (j : Job) (targets : List Request.Prepared) (schedule : List Nat) :
    (runPool j targets schedule).trace = (Pool.run j targets schedule).trace := by
  simp only [runPool]
  split <;> rfl

section

variable {r : Request} {targets : List Json}

/-- Every target that is ready comes to what it comes to alone. -/
theorem runFor_of_ready {schema : Schema} {ready : List Request.Prepared} {comment : Option String}
    (hresolve : Schema.resolve r.document = .ok schema)
    (hprepare : r.prepare [] targets = .ok ready) (hcomment : r.comment = .ok comment)
    (schedule : List Nat) :
    (runFor r targets schedule).outcomes = .ok (ready.map (r.job schema comment).outcome) ∧
      (runFor r targets schedule).trace =
        (Pool.run (r.job schema comment) ready schedule).trace := by
  have hnames := Request.nodup_names_of_prepare hprepare
  rw [← outcomes_runPool (r.job schema comment) hnames schedule, ← trace_runPool]
  simp [runFor, hresolve, hprepare, hcomment, bind, Except.bind, pure, Except.pure]

theorem runFor_of_rejected {f : Failure} (hresolve : Schema.resolve r.document = .error f)
    (schedule : List Nat) : (runFor r targets schedule).outcomes = .error f ∧
      (runFor r targets schedule).trace = [] := by
  simp [runFor, hresolve]

theorem runFor_of_unready {schema : Schema} {f : Failure}
    (hresolve : Schema.resolve r.document = .ok schema)
    (hprepare : r.prepare [] targets = .error f) (schedule : List Nat) :
    (runFor r targets schedule).outcomes = .error f ∧ (runFor r targets schedule).trace = [] := by
  simp [runFor, hresolve, hprepare, bind, Except.bind]

/-- Either all targets are made ready, or the run is stopped and none is worked on. -/
theorem runFor_cases (r : Request) (targets : List Json) :
    (∃ schema ready comment, Schema.resolve r.document = .ok schema ∧
      r.prepare [] targets = .ok ready ∧ r.comment = .ok comment) ∨
    ∃ f, ∀ schedule, (runFor r targets schedule).outcomes = .error f ∧
      (runFor r targets schedule).trace = [] := by
  cases hresolve : Schema.resolve r.document with
  | error f => exact .inr ⟨f, runFor_of_rejected hresolve⟩
  | ok schema =>
    cases hprepare : r.prepare [] targets with
    | error f => exact .inr ⟨f, runFor_of_unready hresolve hprepare⟩
    | ok ready =>
      cases hcomment : r.comment with
      | error f =>
        refine .inr ⟨f, fun schedule => ?_⟩
        simp [runFor, hresolve, hprepare, hcomment, bind, Except.bind]
      | ok comment => exact .inl ⟨schema, ready, comment, rfl, rfl, rfl⟩

theorem run_eq (hrequested : r.requested = .ok targets) (schedule : List Nat) :
    run r schedule = runFor r targets schedule := by
  rw [run, hrequested]

end

/-- What comes of a target that is asked for alone, under any name. -/
theorem run_singleton {r : Request} {schema : Schema} {comment : Option String} {t : Json}
    {p : Request.Prepared} (hresolve : Schema.resolve r.document = .ok schema)
    (hcomment : r.comment = .ok comment) (htarget : r.targetOf t = .ok p.name)
    (hp : r.ready p.name = .ok p) (schedule : List Nat) :
    (run { r with targets := some [t] } schedule).outcomes =
      .ok [(r.job schema comment).outcome p] := by
  have hrun := runFor_of_ready (r := { r with targets := some [t] }) hresolve
    (Request.prepare_singleton htarget hp) hcomment schedule
  exact hrun.1

/-- A run that returns has an outcome for every target, in the order in which the targets are first
asked for, and each is the outcome of the target alone, by whatever name it is asked for.  Neither
depends on the schedule, by which the results may come in in any order.  When the schema is rejected,
or a target is unknown or cannot be made ready, the run is stopped, and a run that is stopped has not
begun to work on any target. -/
theorem targets_isolated {r : Request} {targets : List Json}
    (hrequested : r.requested = .ok targets) :
    (∀ schedule outcomes, (run r schedule).outcomes = .ok outcomes →
      (∀ schedule', (run r schedule').outcomes = .ok outcomes) ∧
      (∃ names, targets.mapM r.targetOf = .ok names ∧
        outcomes.map Outcome.target = names.eraseDups) ∧
      (∀ t ∈ targets, ∃ o ∈ outcomes, r.targetOf t = .ok o.target ∧
        ∀ t', r.targetOf t' = .ok o.target → ∀ schedule',
          (run { r with targets := some [t'] } schedule').outcomes = .ok [o]) ∧
      ∀ order, order.Perm (outcomes.map Outcome.target) →
        ∃ schedule', Pool.collections (run r schedule').trace = order) ∧
    ∀ schedule,
      (∀ f, Schema.resolve r.document = .error f → (run r schedule).outcomes = .error f) ∧
      (∀ schema, Schema.resolve r.document = .ok schema → ∀ t ∈ targets, ∀ f, r.Rejects t f →
        ∃ t' ∈ targets, ∃ f', r.Rejects t' f' ∧ (run r schedule).outcomes = .error f') ∧
      ∀ f, (run r schedule).outcomes = .error f → (run r schedule).trace = [] := by
  simp only [run_eq hrequested]
  refine ⟨fun schedule outcomes houtcomes => ?_,
    fun schedule => ⟨fun f hf => (runFor_of_rejected hf schedule).1, ?_, fun f hf => ?_⟩⟩
  · rcases runFor_cases r targets with
      ⟨schema, ready, comment, hresolve, hprepare, hcomment⟩ | ⟨f, hf⟩
    · have hrun := runFor_of_ready hresolve hprepare hcomment
      obtain rfl := Except.ok.inj ((hrun schedule).1.symm.trans houtcomes)
      have htargets : (ready.map (r.job schema comment).outcome).map Outcome.target =
          ready.map Request.Prepared.name := by
        rw [List.map_map]
        rfl
      refine ⟨fun schedule' => (hrun schedule').1, ?_, fun t ht => ?_, fun order horder => ?_⟩
      · obtain ⟨names, hnames, heq⟩ := Request.names_of_prepare hprepare
        refine ⟨names, hnames, ?_⟩
        rw [htargets, heq]
        simp
      · obtain ⟨p, hp, htarget⟩ := Request.exists_ready_of_mem hprepare ht
        refine ⟨_, List.mem_map_of_mem hp, htarget, fun t' ht' schedule' => ?_⟩
        have hready := Request.ready_of_prepare hprepare p hp
        exact run_singleton hresolve hcomment ht' hready schedule'
      · rw [htargets] at horder
        obtain ⟨schedule', hschedule'⟩ := Pool.exists_schedule (r.job schema comment)
          (Request.nodup_names_of_prepare hprepare) horder
        exact ⟨schedule', (hrun schedule').2 ▸ hschedule'⟩
    · rw [(hf schedule).1] at houtcomes
      cases houtcomes
  · intro schema hresolve t ht f hrejects
    cases hprepare : r.prepare [] targets with
    | ok ready => exact absurd hrejects (Request.not_rejects_of_prepare hprepare ht)
    | error f' =>
      obtain ⟨t', ht', hrejects'⟩ := Request.exists_rejects_of_prepare hprepare
      exact ⟨t', ht', f', hrejects', (runFor_of_unready hresolve hprepare schedule).1⟩
  · rcases runFor_cases r targets with
      ⟨schema, ready, comment, hresolve, hprepare, hcomment⟩ | ⟨f, hf⟩
    · rw [(runFor_of_ready hresolve hprepare hcomment schedule).1] at hf
      cases hf
    · exact (hf schedule).2

/-- A target that writes one file, whatever the schema. -/
def quietEngine : Engine where
  name := "quiet"
  rules := {}
  map _ _ := .ok ⟨"quiet", .any "any", [], []⟩
  render _ _ := .ok [⟨"out", "done"⟩]

/-- A target that fails. -/
def brokenEngine : Engine :=
  { quietEngine with name := "broken", render := fun _ _ => .error (.badOption "broken") }

/-- A request for both, and for one of them again under another name. -/
def mixedRequest : Request where
  rootName := .string "root"
  document := .object []
  targets := some [.string "quiet", .string "broken", .string "Hush"]
  registry :=
    { factories := [("quiet", .custom fun _ => .ok quietEngine),
        ("broken", .custom fun _ => .ok brokenEngine)]
      aliases := [("hush", "quiet")] }

/-- What the request leads to. -/
def mixedOutcomes : List Outcome :=
  [⟨"quiet", .ok ⟨[], [], [⟨"out", "done"⟩]⟩⟩, ⟨"broken", .error (.badOption "broken")⟩]

theorem run_mixed : (run mixedRequest [1, 0, 1]).outcomes = .ok mixedOutcomes := by
  with_unfolding_all rfl

theorem targets_isolated_mixed :
    mixedRequest.requested = .ok [.string "quiet", .string "broken", .string "Hush"] ∧
      (run mixedRequest [1, 0, 1]).outcomes = .ok mixedOutcomes ∧
      (∀ schedule, (run { mixedRequest with targets := some [.string "hush"] } schedule).outcomes =
        .ok [⟨"quiet", .ok ⟨[], [], [⟨"out", "done"⟩]⟩⟩]) ∧
      ∃ schedule, Pool.collections (run mixedRequest schedule).trace = ["broken", "quiet"] := by
  have hrequested : mixedRequest.requested =
      .ok [.string "quiet", .string "broken", .string "Hush"] := rfl
  obtain ⟨-, -, halone, horders⟩ := (targets_isolated hrequested).1 _ _ run_mixed
  have hhush : mixedRequest.targetOf (.string "hush") = .ok "quiet" := by
    with_unfolding_all rfl
  have hquiet : mixedRequest.targetOf (.string "quiet") = .ok "quiet" := by
    with_unfolding_all rfl
  refine ⟨hrequested, run_mixed, fun schedule => ?_, horders _ (List.Perm.swap _ _ _)⟩
  obtain ⟨o, ho, htarget, hsame⟩ := halone (.string "quiet") List.mem_cons_self
  have hname := Except.ok.inj (hquiet.symm.trans htarget)
  rw [mixedOutcomes, List.mem_cons, List.mem_singleton] at ho
  rcases ho with rfl | rfl
  · exact hsame _ hhush schedule
  · exact absurd hname (by decide)

end Typegen.Generation
