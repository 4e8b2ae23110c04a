import Typegen.Generation
import Typegen.Proofs.Keys
import Typegen.Proofs.Outcome

/-!
# Workers do not affect each other

A turn changes one worker and never what that worker comes to in the end (`Progress.result`), so the
results are those of each target alone, whoever gets on first.  Four turns are enough for any worker,
so after the turns that follow a schedule all results are there.  Any order of the targets is the
order in which the results come in by some schedule (`exists_schedule`).
-/

namespace Typegen.Generation

open Request (Prepared)

/-! ## One worker -/

/-- What comes of a target that is worked on alone. -/
def Job.alone (j : Job) (p : Prepared) : Except Failure Output := do
  let names ← j.name p
  let m ← j.map p names
  j.render p names m

namespace Progress

/-- What a worker comes to in the end. -/
def result (j : Job) (p : Prepared) : Progress → Except Failure Output
  | submitted => j.alone p
  | named names => do j.render p names (← j.map p names)
  | mapped names m => j.render p names m
  | finished result => result
  | collected result => result

/-- The turns that a worker may still take. -/
def turns : Progress → Nat
  | submitted => 4
  | named _ => 3
  | mapped _ _ => 2
  | finished _ => 1
  | collected _ => 0

variable {j : Job} {p : Prepared} {s : Progress}

theorem result_advance : (s.advance j p).1.result j p = s.result j p := by
  cases s with
  | submitted =>
    rw [advance, result, Job.alone]
    cases j.name p <;> rfl
  | named names =>
    rw [advance, result]
    cases j.map p names <;> rfl
  | mapped | finished | collected => rfl

theorem turns_le : s.turns ≤ 4 := by
  cases s <;> simp [turns]

theorem turns_advance_le : (s.advance j p).1.turns ≤ s.turns - 1 := by
  cases s with
  | submitted =>
    rw [advance]
    cases j.name p <;> simp [turns]
  | named names =>
    rw [advance]
    cases j.map p names <;> simp [turns]
  | mapped | finished | collected => simp [advance, turns]

/-- Results are collected in a turn of their own. -/
theorem turns_advance_pos (h : 1 < s.turns) : 0 < (s.advance j p).1.turns := by
  cases s with
  | submitted =>
    rw [advance]
    cases j.name p <;> simp [turns]
  | named names =>
    rw [advance]
    cases j.map p names <;> simp [turns]
  | mapped => simp [advance, turns]
  | finished | collected => simp [turns] at h

theorem next?_eq_none_iff : s.next? = none ↔ s.turns = 0 := by
  cases s <;> simp [next?, turns]

theorem next?_eq_collecting_iff : s.next? = some .collecting ↔ s.turns = 1 := by
  cases s <;> simp [next?, turns]

end Progress

/-! ## All workers -/

namespace Pool

variable {j : Job} {targets : List Prepared} {pool : Pool} {i : Nat}

/-- The turns that the worker at an index may still take. -/
def turnsAt (pool : Pool) (i : Nat) : Nat := (pool.workers[i]?.map (·.progress.turns)).getD 0

theorem turnsAt_le (pool : Pool) (i : Nat) : pool.turnsAt i ≤ 4 := by
  rw [turnsAt]
  cases pool.workers[i]? with
  | none => simp
  | some w => exact Progress.turns_le

theorem turnsAt_eq {w : Worker} (h : pool.workers[i]? = some w) :
    pool.turnsAt i = w.progress.turns := by
  rw [turnsAt, h]
  rfl

/-- Either there is nothing to do, or one worker gets on. -/
theorem step_cases (j : Job) (pool : Pool) (i : Nat) :
    (pool.turnsAt i = 0 ∧ pool.step j i = pool) ∨
      ∃ w activity, pool.workers[i]? = some w ∧ w.progress.next? = some activity ∧
        pool.step j i =
          { workers := pool.workers.set i { w with progress := (w.progress.advance j w.target).1 }
            log := pool.log ++ (w.progress.advance j w.target).2
            trace := pool.trace ++ [(w.target.name, activity)]
            results := collect pool.results w } := by
  cases hw : pool.workers[i]? with
  | none => exact .inl ⟨by rw [turnsAt, hw]; rfl, by rw [step, hw]⟩
  | some w =>
    cases hnext : w.progress.next? with
    | none =>
      refine .inl ⟨?_, by simp only [step, hw, hnext]⟩
      rw [turnsAt_eq hw, Progress.next?_eq_none_iff.1 hnext]
    | some activity =>
      exact .inr ⟨w, activity, rfl, hnext, by simp only [step, hw, hnext]⟩

theorem step_of_turnsAt (h : pool.turnsAt i = 0) : pool.step j i = pool := by
  rcases step_cases j pool i with ⟨-, heq⟩ | ⟨w, activity, hw, hnext, -⟩
  · exact heq
  · rw [turnsAt_eq hw] at h
    rw [Progress.next?_eq_none_iff.2 h] at hnext
    cases hnext

variable {k : Nat} {order : List String}

theorem turnsAt_step_of_ne (hne : i ≠ k) : (pool.step j i).turnsAt k = pool.turnsAt k := by
  rcases step_cases j pool i with ⟨-, heq⟩ | ⟨w, activity, -, -, heq⟩
  · rw [heq]
  · rw [heq, turnsAt, List.getElem?_set_ne hne, turnsAt]

theorem turnsAt_step_self (j : Job) (pool : Pool) (i : Nat) :
    (pool.step j i).turnsAt i ≤ pool.turnsAt i - 1 := by
  rcases step_cases j pool i with ⟨hzero, heq⟩ | ⟨w, activity, hw, -, heq⟩
  · rw [heq]
    omega
  · have hi : i < pool.workers.length := (List.getElem?_eq_some_iff.1 hw).1
    rw [turnsAt_eq hw, heq, turnsAt, List.getElem?_set_self hi]
    exact Progress.turns_advance_le

/-- Every turn that a worker gets is one less to take. -/
theorem turnsAt_foldl (schedule : List Nat) (pool : Pool) (k : Nat) :
    (schedule.foldl (step j) pool).turnsAt k ≤ pool.turnsAt k - schedule.count k := by
  induction schedule generalizing pool with
  | nil => exact Nat.le_refl _
  | cons i schedule ih =>
    have hrest := ih (pool.step j i)
    rw [List.foldl_cons, List.count_cons]
    by_cases hi : i = k
    · subst hi
      have hself := turnsAt_step_self j pool i
      rw [beq_self_eq_true, if_pos rfl]
      omega
    · rw [turnsAt_step_of_ne hi] at hrest
      rw [beq_false_of_ne hi, if_neg (by simp)]
      exact hrest

theorem foldl_of_turnsAt {schedule : List Nat} (h : ∀ k ∈ schedule, pool.turnsAt k = 0) :
    schedule.foldl (step j) pool = pool := by
  induction schedule with
  | nil => rfl
  | cons i schedule ih =>
    rw [List.forall_mem_cons] at h
    rw [List.foldl_cons, step_of_turnsAt h.1, ih h.2]

theorem turnsAt_foldl_of_notMem {schedule : List Nat} (h : k ∉ schedule) :
    (schedule.foldl (step j) pool).turnsAt k = pool.turnsAt k := by
  induction schedule generalizing pool with
  | nil => rfl
  | cons i schedule ih =>
    rw [List.mem_cons, not_or] at h
    rw [List.foldl_cons, ih h.2, turnsAt_step_of_ne (Ne.symm h.1)]

theorem targets_step (j : Job) (pool : Pool) (i : Nat) :
    (pool.step j i).workers.map Worker.target = pool.workers.map Worker.target := by
  rcases step_cases j pool i with ⟨-, heq⟩ | ⟨w, activity, hw, -, heq⟩
  · rw [heq]
  · obtain ⟨hi, hget⟩ := List.getElem?_eq_some_iff.1 hw
    have hi' : i < (pool.workers.map Worker.target).length := by rwa [List.length_map]
    have hget' : (pool.workers.map Worker.target)[i] = w.target := by rw [List.getElem_map, hget]
    rw [heq, List.map_set, ← hget', List.set_getElem_self]

theorem targets_foldl (schedule : List Nat) (pool : Pool) :
    (schedule.foldl (step j) pool).workers.map Worker.target = pool.workers.map Worker.target := by
  induction schedule generalizing pool with
  | nil => rfl
  | cons i schedule ih => rw [List.foldl_cons, ih, targets_step]

theorem names_foldl (schedule : List Nat) (pool : Pool) :
    (schedule.foldl (step j) pool).workers.map (fun w => w.target.name) =
      pool.workers.map fun w => w.target.name := by
  have htargets := congrArg (List.map Prepared.name) (targets_foldl (j := j) schedule pool)
  rwa [List.map_map, List.map_map] at htargets

/-! ## Results -/

/-- Every worker comes to what it would alone, and the results that have been collected are there. -/
structure Sound (j : Job) (pool : Pool) : Prop where
  result : ∀ w ∈ pool.workers, w.progress.result j w.target = j.alone w.target
  collected : ∀ w ∈ pool.workers, w.progress.turns = 0 →
    pool.results.lookup w.target.name = some (j.alone w.target)

theorem targets_start : (start targets).workers.map Worker.target = targets := by
  simp [start, Function.comp_def]

theorem sound_start : Sound j (start targets) where
  result := by simp [start, Progress.result]
  collected := by simp [start, Progress.turns]

theorem lookup_collect (results : List (String × Except Failure Output)) (w : Worker) (name : String)
    (j : Job) : (collect results w).lookup name =
      if w.progress.turns = 1 ∧ name = w.target.name then some (w.progress.result j w.target)
      else results.lookup name := by
  unfold collect
  cases w.progress with
  | finished result =>
    rw [lookup_setMember]
    by_cases hname : name = w.target.name
    · rw [if_pos hname, if_pos ⟨rfl, hname⟩, Progress.result]
    · rw [if_neg hname, if_neg fun h => hname h.2]
  | submitted | named | mapped | collected => simp [Progress.turns]

theorem Sound.step (h : pool.Sound j)
    (hnames : (pool.workers.map fun w => w.target.name).Nodup) (i : Nat) :
    (pool.step j i).Sound j := by
  rcases step_cases j pool i with ⟨-, heq⟩ | ⟨w, activity, hw, hnext, heq⟩
  · rwa [heq]
  have hmem : w ∈ pool.workers := List.mem_of_getElem? hw
  have hresult := h.result w hmem
  rw [heq]
  refine ⟨fun w' hw' => ?_, fun w' hw' hturns => ?_⟩
  · rcases List.mem_or_eq_of_mem_set hw' with hw' | rfl
    · exact h.result w' hw'
    · exact Progress.result_advance.trans hresult
  · rw [lookup_collect _ _ _ j]
    rcases List.mem_or_eq_of_mem_set hw' with hw' | rfl
    · -- A worker whose result was collected before is another one.
      rw [if_neg, h.collected w' hw' hturns]
      rintro ⟨hone, hname⟩
      rw [List.inj_on_of_nodup_map hnames hw' hmem hname, hone] at hturns
      cases hturns
    · have hone : w.progress.turns = 1 := by
        have hpos := mt Progress.next?_eq_none_iff.2 (by rw [hnext]; exact Option.some_ne_none _)
        have hle := mt (Progress.turns_advance_pos (j := j) (p := w.target)) (by rw [hturns]; omega)
        omega
      rw [if_pos ⟨hone, rfl⟩, hresult]

theorem Sound.foldl (h : pool.Sound j)
    (hnames : (pool.workers.map fun w => w.target.name).Nodup) (schedule : List Nat) :
    (schedule.foldl (Pool.step j) pool).Sound j := by
  induction schedule generalizing pool with
  | nil => exact h
  | cons i schedule ih =>
    have hsame : (pool.step j i).workers.map (fun w => w.target.name) =
        pool.workers.map fun w => w.target.name := names_foldl [i] pool
    exact ih (h.step hnames i) (hsame ▸ hnames)

theorem count_inTurn {n : Nat} (h : k < n) : (inTurn n).count k = 4 := by
  induction n with
  | zero => cases h
  | succ n ih =>
    rw [inTurn, List.range_succ, List.flatMap_append, List.flatMap_singleton, List.count_append,
      List.count_replicate]
    by_cases hk : n = k
    · have hzero : ((List.range n).flatMap (List.replicate 4)).count k = 0 := by
        rw [List.count_eq_zero]
        simp [hk]
      rw [hzero, hk, beq_self_eq_true, if_pos rfl]
    · rw [beq_false_of_ne hk]
      exact ih (by omega)

/-- In the end nobody has anything left to do. -/
theorem turnsAt_run (schedule : List Nat) (k : Nat) : (run j targets schedule).turnsAt k = 0 := by
  have hturns := turnsAt_foldl (j := j) (schedule ++ inTurn targets.length) (start targets) k
  have hstart := turnsAt_le (start targets) k
  rw [List.count_append] at hturns
  by_cases hk : k < targets.length
  · rw [count_inTurn hk] at hturns
    rw [run]
    omega
  · have hnone : (start targets).workers[k]? = none := by
      rw [List.getElem?_eq_none_iff, start, List.length_map]
      omega
    have hzero : (start targets).turnsAt k = 0 := by rw [turnsAt, hnone]; rfl
    rw [run]
    omega

/-- In the end all results are there, and they are those of each target alone. -/
theorem lookup_results_run (hnames : (targets.map Prepared.name).Nodup) (schedule : List Nat)
    {p : Prepared} (hp : p ∈ targets) :
    (run j targets schedule).results.lookup p.name = some (j.alone p) := by
  have hstart : ((start targets).workers.map fun w => w.target.name).Nodup := by
    simpa [start, Function.comp_def] using hnames
  have hsound : (run j targets schedule).Sound j := sound_start.foldl hstart _
  have htargets : (run j targets schedule).workers.map Worker.target = targets :=
    (targets_foldl _ _).trans targets_start
  obtain ⟨w, hw, rfl⟩ := List.mem_map.1 (htargets.symm ▸ hp)
  refine hsound.collected w hw ?_
  obtain ⟨k, hk⟩ := List.getElem?_of_mem hw
  rw [← turnsAt_eq hk, turnsAt_run]

/-! ## Orders -/

/-- The targets in the order in which their results were collected. -/
def collections (trace : List (String × Activity)) : List String :=
  (trace.filter fun e => e.2 = .collecting).map Prod.fst

theorem collections_append (trace : List (String × Activity)) (name : String)
    (activity : Activity) : collections (trace ++ [(name, activity)]) =
      collections trace ++ if activity = .collecting then [name] else [] := by
  rw [collections, List.filter_append, List.map_append, collections]
  by_cases h : activity = .collecting <;> simp [h]

/-- A worker that gets enough turns in a row has its result collected. -/
theorem collections_replicate {w : Worker} {n : Nat} (hw : pool.workers[i]? = some w)
    (hpos : 0 < w.progress.turns) (hle : w.progress.turns ≤ n) :
    collections ((List.replicate n i).foldl (step j) pool).trace =
      collections pool.trace ++ [w.target.name] := by
  induction n generalizing pool w with
  | zero => omega
  | succ n ih =>
    rw [List.replicate_succ, List.foldl_cons]
    rcases step_cases j pool i with ⟨hzero, -⟩ | ⟨w', activity, hw', hnext, heq⟩
    · rw [turnsAt_eq hw] at hzero
      omega
    obtain rfl : w = w' := Option.some.inj (hw.symm.trans hw')
    have htrace : (pool.step j i).trace = pool.trace ++ [(w.target.name, activity)] := by rw [heq]
    have hactivity : activity = .collecting ↔ w.progress.turns = 1 := by
      rw [← Progress.next?_eq_collecting_iff, hnext, Option.some.injEq]
    by_cases hone : w.progress.turns = 1
    · -- This turn collects the result, and nothing is left for the others.
      have hself := turnsAt_step_self j pool i
      rw [turnsAt_eq hw, hone] at hself
      have hdone : ∀ k ∈ List.replicate n i, (pool.step j i).turnsAt k = 0 := by
        intro k hk
        rw [List.eq_of_mem_replicate hk]
        omega
      rw [foldl_of_turnsAt hdone, htrace, collections_append, if_pos (hactivity.2 hone)]
    · have hnew : (pool.step j i).workers[i]? =
          some { w with progress := (w.progress.advance j w.target).1 } := by
        rw [heq]
        exact List.getElem?_set_self (List.getElem?_eq_some_iff.1 hw).1
      have hless : (w.progress.advance j w.target).1.turns ≤ w.progress.turns - 1 :=
        Progress.turns_advance_le
      rw [ih hnew (Progress.turns_advance_pos (by omega)) (by dsimp only; omega), htrace,
        collections_append, if_neg (mt hactivity.1 hone), List.append_nil]

/-- Turns for one target after the other. -/
def oneByOne (names order : List String) : List Nat :=
  order.flatMap fun name => List.replicate 4 (names.idxOf name)

theorem collections_oneByOne {names : List String}
    (hnames : pool.workers.map (fun w => w.target.name) = names) (hnodup : order.Nodup)
    (hmem : ∀ name ∈ order, name ∈ names)
    (hpos : ∀ name ∈ order, 0 < pool.turnsAt (names.idxOf name)) :
    collections ((oneByOne names order).foldl (step j) pool).trace =
      collections pool.trace ++ order := by
  induction order generalizing pool with
  | nil => rw [List.append_nil]; rfl
  | cons name order ih =>
    rw [List.nodup_cons] at hnodup
    rw [List.forall_mem_cons] at hmem hpos
    obtain ⟨w, hw, hname⟩ : ∃ w, pool.workers[names.idxOf name]? = some w ∧
        w.target.name = name := by
      have hget := List.getElem?_idxOf hmem.1
      rw [← hnames, List.getElem?_map, hnames] at hget
      obtain ⟨w, hw, hname⟩ := Option.map_eq_some_iff.1 hget
      exact ⟨w, hw, hname⟩
    rw [oneByOne, List.flatMap_cons, List.foldl_append, ← oneByOne]
    have hothers : ∀ other ∈ order, names.idxOf other ∉ List.replicate 4 (names.idxOf name) := by
      intro other hother hmem'
      have heq := (List.idxOf_inj (hmem.2 other hother)).1 (List.eq_of_mem_replicate hmem')
      exact hnodup.1 (heq ▸ hother)
    rw [ih ?_ hnodup.2 hmem.2 fun other hother => ?_]
    · rw [collections_replicate hw (turnsAt_eq hw ▸ hpos.1) Progress.turns_le, hname,
        List.append_assoc, List.singleton_append]
    · exact (names_foldl _ pool).trans hnames
    · rw [turnsAt_foldl_of_notMem (hothers other hother)]
      exact hpos.2 other hother

theorem turnsAt_oneByOne {names : List String} {name : String} (h : name ∈ order) :
    ((oneByOne names order).foldl (step j) pool).turnsAt (names.idxOf name) = 0 := by
  have hturns := turnsAt_foldl (j := j) (oneByOne names order) pool (names.idxOf name)
  have hstart := turnsAt_le pool (names.idxOf name)
  have hcount : 4 ≤ (oneByOne names order).count (names.idxOf name) := by
    have hsub : (List.replicate 4 (names.idxOf name)).Sublist (oneByOne names order) :=
      List.sublist_flatten_of_mem (List.mem_map_of_mem h)
    simpa using hsub.count_le (names.idxOf name)
  omega

/-- The results may be collected in any order. -/
theorem exists_schedule (j : Job) (hnames : (targets.map Prepared.name).Nodup)
    (horder : order.Perm (targets.map Prepared.name)) :
    ∃ schedule, collections (run j targets schedule).trace = order := by
  have hstart : (start targets).workers.map (fun w => w.target.name) =
      targets.map Prepared.name := by
    simp [start, Function.comp_def]
  have hdone : ∀ k ∈ inTurn targets.length,
      ((oneByOne (targets.map Prepared.name) order).foldl (step j) (start targets)).turnsAt k =
        0 := by
    intro k hk
    obtain ⟨k', hk', hk⟩ := List.mem_flatMap.1 hk
    obtain rfl := List.eq_of_mem_replicate hk
    have hlt : k < (targets.map Prepared.name).length := by simpa using hk'
    rw [← hnames.idxOf_getElem k hlt]
    exact turnsAt_oneByOne (horder.mem_iff.2 (List.getElem_mem hlt))
  refine ⟨oneByOne (targets.map Prepared.name) order, ?_⟩
  rw [run, List.foldl_append, foldl_of_turnsAt hdone, collections_oneByOne hstart
    (horder.nodup_iff.2 hnames) (fun name hname => horder.mem_iff.1 hname) fun name hname => ?_]
  · rfl
  · have hlt := List.idxOf_lt_length_iff.2 (horder.mem_iff.1 hname)
    rw [List.length_map] at hlt
    simp [turnsAt, start, hlt, Progress.turns]

end Pool

end Typegen.Generation
