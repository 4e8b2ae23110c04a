import Typegen.Command.Run
import Typegen.Proofs.FileNames
import Typegen.Proofs.Loading

/-!
# What a run has to write

A run of the command is stopped before there are any results, and then it changes nothing, or it
goes on to write the results.  Unless the configuration has naming rules of its own, the results are
those of the requested targets, each with files that have the names of its target.
-/

namespace Typegen

/-! ## Settings -/

/-- What is kept for a target has no naming rules of its own. -/
def TargetEntry.KeepsNaming (e : TargetEntry) : Prop :=
  ∀ settings v, e = .settings settings → settings.naming = some v → v.isFalsy = true

/-- No target has naming rules of its own. -/
def Settings.KeepsNaming (s : Settings) : Prop :=
  ∀ list, s.targets = .entries list → ∀ e ∈ list, e.2.KeepsNaming

theorem TargetEntry.keepsNaming_default : (TargetEntry.settings {}).KeepsNaming := by
  rintro settings v ⟨⟩ ⟨⟩
  rfl

/-- The settings have a table of shipped targets under their own names, without naming rules. -/
structure Settings.Canonical (s : Settings) (list : List (String × TargetEntry)) : Prop where
  targets : s.targets = .entries list
  name : ∀ e ∈ list, ∃ t : Target, e.1 = t.label
  keepsNaming : ∀ e ∈ list, e.2.KeepsNaming

namespace Settings.Canonical

variable {s s' : Settings} {list : List (String × TargetEntry)} {t : Target} {e : TargetEntry}

theorem target (h : s.Canonical list) (htarget : s.target t.label = .ok (e, s')) :
    e.KeepsNaming ∧ ∃ list', s'.Canonical list' := by
  unfold Settings.target at htarget
  split_ifs at htarget
  rw [h.targets] at htarget
  obtain ⟨⟨e', table⟩, hlookUp, htarget⟩ := bind_eq_ok.1 htarget
  cases htarget
  unfold TargetTable.lookUp at hlookUp
  simp only at hlookUp
  split at hlookUp
  · next found hfound =>
    cases hlookUp
    exact ⟨h.keepsNaming _ (mem_of_lookup hfound), list, ⟨rfl, h.name, h.keepsNaming⟩⟩
  · cases hlookUp
    refine ⟨TargetEntry.keepsNaming_default, _, ⟨rfl, fun e he => ?_, fun e he => ?_⟩⟩
    · rcases List.mem_append.1 he with he | he
      · exact h.name e he
      · exact ⟨t, by rw [List.mem_singleton.1 he]⟩
    · rcases List.mem_append.1 he with he | he
      · exact h.keepsNaming e he
      · rw [List.mem_singleton.1 he]
        exact TargetEntry.keepsNaming_default

theorem updateTarget {option : String} {change : TargetSettings → TargetSettings}
    (h : s.Canonical list) (hupdate : s.updateTarget t.label option change = .ok s')
    (hchange : ∀ settings, (change settings).naming = settings.naming) :
    ∃ list', s'.Canonical list' := by
  obtain ⟨⟨e, s₁⟩, htarget, hupdate⟩ := bind_eq_ok.1 hupdate
  obtain ⟨settings, hasked, hupdate⟩ := bind_eq_ok.1 hupdate
  cases hupdate
  obtain ⟨hnaming, list₁, hlist₁⟩ := h.target htarget
  have hentry : (TargetEntry.settings (change settings)).KeepsNaming := by
    rintro _ v ⟨⟩ hv
    rw [hchange] at hv
    cases e with
    | settings given =>
      cases hasked
      exact hnaming settings v rfl hv
    | other v => cases hasked
  refine ⟨Json.setMember t.label (.settings (change settings)) list₁, ?_, fun e he => ?_,
    fun e he => ?_⟩
  · simp [TargetTable.set, hlist₁.targets]
  · rcases mem_setMember he with rfl | he
    · exact ⟨t, rfl⟩
    · exact hlist₁.name e he
  · rcases mem_setMember he with rfl | he
    · exact hentry
    · exact hlist₁.keepsNaming e he

end Settings.Canonical

end Typegen

namespace Typegen.Command

open Files (Tree)

/-! ## Results -/

/-- Whether help is asked for. -/
def asksForHelp (args : List String) : Bool :=
  match readArguments args with
  | .ok a => a.given.any fun g => g.option = helpOption
  | .error _ => false

/-- What is generated from a document for some targets. -/
def requestFor (t : Tree) (vs : Values) (s : Settings) (targets : List String) (d : Json) :
    Generation.Request where
  rootName := rootName vs s
  document := d
  settings := s
  targets := some (targets.map .string)
  registry := .standard
  command := commandLine t parameters vs

/-- The values of the parameters, unless they are at fault or help is asked for. -/
def values? (t : Tree) (args : List String) : Option Values := do
  let a ← (readArguments args).toOption
  if a.given.any fun g => g.option = helpOption then none else (readValues t a).toOption

/-- The settings of a run and the targets that are requested, if there are any. -/
def settings? (t : Tree) (vs : Values) : Option (Settings × List String) := do
  let s ← (loadSettings t (valueOf vs "config")).toOption
  let s ← (canonicalTargets .standard s).toOption
  let s ← (overrideSettings vs s).toOption
  let targets ← (requestedTargets s).toOption
  if targets = [] then none else some (s, targets)

/-- The outcomes of the requested targets, unless the run is stopped before there are any. -/
def outcomes? (t : Tree) (vs : Values) (s : Settings) (targets : List String) :
    Option (List Generation.Outcome) := do
  let d ← (readText t (valueOf vs "path").plain >>= Document.load).toOption
  (Generation.run (requestFor t vs s targets d)).outcomes.toOption

/-- The settings and the outcomes of a run, unless it is stopped before there are any. -/
def results? (t : Tree) (args : List String) : Option (Settings × List Generation.Outcome) := do
  let vs ← values? t args
  let (s, targets) ← settings? t vs
  (outcomes? t vs s targets).map (s, ·)

theorem toOption_eq_some {ε α : Type} {x : Except ε α} {a : α} :
    x.toOption = some a ↔ x = .ok a := by
  cases x <;> simp [Except.toOption]

/-- A run that is stopped changes nothing, and does not end well. -/
theorem stopped_spec (t : Tree) (said : List Message) (f : Failure) :
    (stopped t said f).tree = t ∧ (stopped t said f).exitCode ≠ 0 := by
  unfold stopped
  split
  · split
    · exact ⟨rfl, by simp [Outcome.exitCode]⟩
    · exact ⟨rfl, by simp [Outcome.exitCode]⟩
  · exact ⟨rfl, by simp [Outcome.exitCode]⟩
  · exact ⟨rfl, by simp [Outcome.exitCode]⟩

/-- A run changes nothing and does not end well, or it writes its results. -/
inductive Ends (t : Tree) : Option (Settings × List Generation.Outcome) → Outcome → Prop
  | stopped {o : Outcome} (htree : o.tree = t) (hcode : o.exitCode ≠ 0) : Ends t none o
  | wrote {s : Settings} {outcomes : List Generation.Outcome} {o : Outcome}
      (htree : o.tree = (writeTargets s t true outcomes).1)
      (hending : o.ending = (writeTargets s t true outcomes).2.2) : Ends t (some (s, outcomes)) o

theorem ends_generate (t : Tree) (vs : Values) (s : Settings) (targets : List String) :
    Ends t ((outcomes? t vs s targets).map (s, ·)) (generate t vs s .standard targets) := by
  unfold generate outcomes?
  rcases hdocument : readText t (valueOf vs "path").plain >>= Document.load with f | d
  · exact .stopped (stopped_spec _ _ _).1 (stopped_spec _ _ _).2
  · show Ends t (((Generation.run (requestFor t vs s targets d)).outcomes.toOption).map (s, ·)) _
    rcases houtcomes : (Generation.run (requestFor t vs s targets d)).outcomes with f | outcomes
    · simp only [requestFor] at houtcomes
      simp only [houtcomes]
      exact .stopped (stopped_spec _ _ _).1 (stopped_spec _ _ _).2
    · simp only [requestFor] at houtcomes
      simp only [houtcomes]
      exact .wrote rfl rfl

theorem unknownTargets_ne (f : Failure) (code : Nat) : unknownTargets f ≠ .exit code := by
  unfold unknownTargets
  split
  · split <;> simp
  · simp

theorem exitCode_ne {o : Outcome} (h : ∀ code, o.ending ≠ .exit code) : o.exitCode ≠ 0 := by
  unfold Outcome.exitCode
  split
  · next code heq => exact absurd heq (h code)
  · decide
  · decide

theorem ends_runWith (t : Tree) (vs : Values) :
    Ends t (do let (s, targets) ← settings? t vs; (outcomes? t vs s targets).map (s, ·))
      (runWith t vs) := by
  unfold runWith settings?
  rcases hload : loadSettings t (valueOf vs "config") with f | s₀
  · exact .stopped rfl (exitCode_ne (by simp))
  rcases hnames : canonicalTargets .standard s₀ with f | s₁
  · simp only [hnames, Except.toOption, Option.bind_eq_bind, Option.bind_some, Option.bind_none]
    exact .stopped rfl (exitCode_ne (unknownTargets_ne f))
  rcases hsettings : overrideSettings vs s₁ with f | s
  · simp only [hnames, hsettings, Except.toOption, bind, Option.bind_some, Option.bind_none,
      Except.bind]
    exact .stopped rfl (exitCode_ne (by simp))
  rcases htargets : requestedTargets s with f | targets
  · simp only [hnames, hsettings, htargets, Except.toOption, bind, Option.bind_some,
      Option.bind_none, Except.bind]
    exact .stopped rfl (exitCode_ne (by simp))
  simp only [hnames, hsettings, htargets, Except.toOption, bind, Option.bind_some, Except.bind]
  cases targets with
  | nil => exact .stopped rfl (exitCode_ne (by simp [pure, Except.pure]))
  | cons target rest =>
    simp only [reduceCtorEq, if_false, Option.bind_some, pure, Except.pure]
    exact ends_generate t vs s (target :: rest)

/-- A run is stopped before there are results, or it writes them.  Only a run that is asked for help
ends well without results. -/
theorem run_cases (t : Tree) (args : List String) :
    (results? t args = none ∧ (run t args).tree = t ∧
        ((run t args).exitCode = 0 ↔ asksForHelp args = true)) ∨
      ∃ s outcomes, results? t args = some (s, outcomes) ∧
        (run t args).tree = (writeTargets s t true outcomes).1 ∧
        (run t args).ending = (writeTargets s t true outcomes).2.2 := by
  unfold run results? values? asksForHelp
  rcases hargs : readArguments args with fault | a
  · exact .inl ⟨rfl, rfl, by simp [Outcome.exitCode]⟩
  rcases hhelp : (a.given.any fun g => g.option = helpOption) with _ | _
  · simp only [hhelp, Except.toOption, bind, Option.bind_some, Bool.false_eq_true, if_false]
    rcases hvalues : readValues t a with refusal | vs
    · left
      cases refusal with
      | misuse fault => exact ⟨rfl, rfl, by simp [Outcome.exitCode]⟩
      | failure f => exact ⟨rfl, rfl, by simp [Outcome.exitCode]⟩
    · have hends := ends_runWith t vs
      simp only [Option.bind_some]
      revert hends
      generalize hresults : (do
        let (s, targets) ← settings? t vs
        (outcomes? t vs s targets).map (s, ·)) = results
      rintro (⟨htree, hcode⟩ | ⟨htree, hending⟩)
      · exact .inl ⟨hresults, htree, iff_of_false hcode id⟩
      · exact .inr ⟨_, _, hresults, htree, hending⟩
  · simp only [hhelp, Except.toOption, bind, Option.bind_some, Option.bind_none, if_true]
    exact .inl ⟨trivial, trivial, by simp [Outcome.exitCode]⟩

/-! ## Settings of a run -/

variable {s s' : Settings} {list : List (String × TargetEntry)} {name : String} {t : Tree}
  {targets args : List String}

theorem canonical_of_canonicalTargets (hnaming : s.KeepsNaming)
    (h : canonicalTargets .standard s = .ok s') : ∃ list, s'.Canonical list := by
  obtain ⟨list, hlist, h⟩ := bind_eq_ok.1 h
  obtain ⟨targets, htargets, h⟩ := bind_eq_ok.1 h
  cases h
  have hentries : s.targets = .entries list := by
    unfold TargetTable.toList at hlist
    split at hlist
    · next entries heq => rw [heq, Except.ok.inj hlist]
    · cases hlist
    · cases hlist
  have hall : (∀ e ∈ targets, ∃ t : Target, e.1 = t.label) ∧ ∀ e ∈ targets, e.2.KeepsNaming := by
    refine foldlM_invariant (P := fun table : List (String × TargetEntry) =>
      (∀ e ∈ table, ∃ t : Target, e.1 = t.label) ∧ ∀ e ∈ table, e.2.KeepsNaming)
      htargets (by simp) ?_
    rintro table ⟨key, entry⟩ table' hmem ⟨hnames, hkeeps⟩ hstep
    obtain ⟨name, hname, hstep⟩ := bind_eq_ok.1 hstep
    cases hstep
    obtain ⟨t, ht⟩ := Registry.exists_target hname
    refine ⟨fun e he => ?_, fun e he => ?_⟩
    · rcases mem_setMember he with rfl | he
      · exact ⟨t, ht⟩
      · exact hnames e he
    · rcases mem_setMember he with rfl | he
      · exact hnaming list hentries (key, entry) hmem
      · exact hkeeps e he
  exact ⟨targets, rfl, hall.1, hall.2⟩

theorem canonical_of_overrideSettings {vs : Values} (hs : s.Canonical list)
    (h : overrideSettings vs s = .ok s') : ∃ list', s'.Canonical list' := by
  obtain ⟨s₁, hout, h⟩ := bind_eq_ok.1 h
  have hs₁ : ∃ list₁, s₁.Canonical list₁ := by
    refine foldlM_invariant (P := fun s : Settings => ∃ list, s.Canonical list) hout ⟨list, hs⟩ ?_
    rintro s ⟨t, option⟩ s' - ⟨list, hs⟩ hstep
    simp only at hstep
    split_ifs at hstep
    · exact hs.updateTarget hstep fun _ => rfl
    · cases hstep
      exact ⟨list, hs⟩
  have hlast : ∀ {s₂ : Settings} {force addComment : Json}, (∃ list₂, s₂.Canonical list₂) →
      ∃ list', ({ s₂ with force := force, addComment := addComment } : Settings).Canonical list' :=
    fun ⟨list₂, h₂⟩ => ⟨list₂, h₂.targets, h₂.name, h₂.keepsNaming⟩
  by_cases hpackage : (valueOf vs "java_package").isTruthy = true
  · simp only [hpackage, if_true] at h
    obtain ⟨s₂, hupdate, h⟩ := bind_eq_ok.1 h
    obtain ⟨list₁, hs₁⟩ := hs₁
    rw [← pure_eq_ok.1 h]
    exact hlast (hs₁.updateTarget hupdate fun _ => rfl)
  · simp only [hpackage, Bool.false_eq_true, if_false] at h
    rw [← pure_eq_ok.1 h]
    exact hlast hs₁

theorem toList_eq_ok {table : TargetTable} : table.toList = .ok list ↔ table = .entries list := by
  cases table <;> simp [TargetTable.toList]

theorem exists_lookup_of_requested (hs : s.Canonical list) (h : requestedTargets s = .ok targets)
    (hname : name ∈ targets) : (∃ t : Target, name = t.label) ∧ ∃ e, list.lookup name = some e := by
  obtain ⟨list', hlist, h⟩ := bind_eq_ok.1 h
  rw [toList_eq_ok, hs.targets, TargetTable.entries.injEq] at hlist
  subst hlist
  obtain ⟨all, hall, h⟩ := bind_eq_ok.1 h
  cases h
  obtain ⟨⟨name', settings⟩, hmem, rfl⟩ := List.mem_map.1 hname
  obtain ⟨⟨key, e⟩, he, hasked⟩ :=
    exists_of_mem_right (mapM_eq_ok.1 hall) (List.mem_of_mem_filter hmem)
  obtain ⟨settings', -, hasked⟩ := bind_eq_ok.1 hasked
  cases hasked
  exact ⟨hs.name _ he, exists_lookup_of_mem_keys (List.mem_map_of_mem he)⟩

/-- The output directory of a target is looked up without changing the settings. -/
theorem eq_of_outDirFor {dir : Json} (hs : s.Canonical list)
    (hname : ∃ e, list.lookup name = some e) (h : outDirFor s name = .ok (dir, s')) : s' = s := by
  obtain ⟨e, he⟩ := hname
  obtain ⟨⟨e', s₁⟩, htarget, h⟩ := bind_eq_ok.1 h
  obtain ⟨settings, -, h⟩ := bind_eq_ok.1 h
  cases h
  unfold Settings.target at htarget
  split_ifs at htarget
  rw [hs.targets] at htarget
  simp only [TargetTable.lookUp, he] at htarget
  obtain ⟨⟨e'', table⟩, hlookUp, htarget⟩ := bind_eq_ok.1 htarget
  cases hlookUp
  cases htarget
  rw [← hs.targets]

/-- The options of a target are kept in the settings, or they are the default ones. -/
theorem mem_of_targetSettings {r : Generation.Request} (hs : r.settings.targets = .entries list)
    {settings : TargetSettings} (h : r.targetSettings name = .ok settings) :
    settings = {} ∨ ∃ key, (key, .settings settings) ∈ list := by
  obtain ⟨e, hentry, hasked⟩ := bind_eq_ok.1 h
  obtain ⟨list', hlist, hentry⟩ := bind_eq_ok.1 hentry
  rw [toList_eq_ok, hs, TargetTable.entries.injEq] at hlist
  subst hlist
  have hsettings : e = .settings settings := by
    cases e with
    | settings given => rw [Except.ok.inj hasked]
    | other w => cases hasked
  subst hsettings
  simp only at hentry
  split at hentry
  · next key found hfound =>
    cases hentry
    exact .inr ⟨key, List.mem_of_find?_eq_some hfound⟩
  · cases hentry
    exact .inl rfl

theorem keepsNaming_of_targetSettings {r : Generation.Request} (hs : r.settings.Canonical list)
    {settings : TargetSettings} (h : r.targetSettings name = .ok settings) {v : Json}
    (hv : settings.naming = some v) : v.isFalsy = true := by
  rcases mem_of_targetSettings hs.targets h with rfl | ⟨key, hmem⟩
  · exact TargetEntry.keepsNaming_default _ v rfl hv
  · exact hs.keepsNaming _ hmem settings v rfl hv

/-- The configuration of a run has no naming rules of its own. -/
def KeepsNaming (t : Tree) (args : List String) : Prop :=
  ∀ vs s, values? t args = some vs → loadSettings t (valueOf vs "config") = .ok s → s.KeepsNaming

/-- A run without a configuration file has no naming rules of its own. -/
theorem keepsNaming_of_noConfig (h : (values? t args).map (valueOf · "config") = some .null) :
    KeepsNaming t args := by
  intro vs s hvalues hload
  rw [hvalues, Option.map_some, Option.some.injEq] at h
  rw [h] at hload
  cases hload
  rintro list ⟨⟩ e he
  cases he

/-- The files of a target have the names of the target. -/
def Named (o : Generation.Outcome) : Prop :=
  ∃ tg : Target, o.target = tg.label ∧ ∀ out, o.result = .ok out → Generation.NamedFor tg out.files

/-- What a run without naming rules of its own has to write. -/
structure HasResults (s : Settings) (outcomes : List Generation.Outcome) : Prop where
  /-- There is an outcome for every target that is requested, and for no other. -/
  requested : ∃ targets, requestedTargets s = .ok targets ∧
    ∀ name, name ∈ targets ↔ ∃ o ∈ outcomes, o.target = name
  nodup : (outcomes.map (·.target)).Nodup
  named : ∀ o ∈ outcomes, Named o
  /-- Looking up the output directory of a target leaves the settings as they are. -/
  outDir : ∀ o ∈ outcomes, ∀ dir s', outDirFor s o.target = .ok (dir, s') → s' = s

theorem canonical_of_settings? {vs : Values}
    (hnaming : ∀ s, loadSettings t (valueOf vs "config") = .ok s → s.KeepsNaming)
    (h : settings? t vs = some (s, targets)) :
    requestedTargets s = .ok targets ∧ ∃ list, s.Canonical list := by
  obtain ⟨s₀, hload, h⟩ := Option.bind_eq_some_iff.1 h
  obtain ⟨s₁, hcanonical, h⟩ := Option.bind_eq_some_iff.1 h
  obtain ⟨s₂, hoverride, h⟩ := Option.bind_eq_some_iff.1 h
  obtain ⟨targets', hrequested, h⟩ := Option.bind_eq_some_iff.1 h
  rw [toOption_eq_some] at hload hcanonical hoverride hrequested
  split_ifs at h
  cases h
  obtain ⟨list, hs₁⟩ := canonical_of_canonicalTargets (hnaming s₀ hload) hcanonical
  exact ⟨hrequested, canonical_of_overrideSettings hs₁ hoverride⟩

/-- The targets of the settings go by their own names. -/
theorem targetOf_requested (hs : s.Canonical list) (hrequested : requestedTargets s = .ok targets)
    (t : Tree) (vs : Values) (d : Json) (hname : name ∈ targets) :
    (requestFor t vs s targets d).targetOf (.string name) = .ok name := by
  obtain ⟨⟨tg, rfl⟩, -⟩ := exists_lookup_of_requested hs hrequested hname
  exact Registry.resolveName_label tg

/-- The results of a run are the outcomes of a request for the targets of its settings. -/
theorem exists_request_of_results? {outcomes : List Generation.Outcome}
    (hnaming : KeepsNaming t args) (h : results? t args = some (s, outcomes)) :
    ∃ vs targets list d, values? t args = some vs ∧ requestedTargets s = .ok targets ∧
      s.Canonical list ∧ (readText t (valueOf vs "path").plain >>= Document.load) = .ok d ∧
      (Generation.run (requestFor t vs s targets d)).outcomes = .ok outcomes := by
  obtain ⟨vs, hvalues, h⟩ := Option.bind_eq_some_iff.1 h
  obtain ⟨⟨s', targets⟩, hsettings, h⟩ := Option.bind_eq_some_iff.1 h
  obtain ⟨outcomes', houtcomes, heq⟩ := Option.map_eq_some_iff.1 h
  cases heq
  obtain ⟨hrequested, list, hs⟩ :=
    canonical_of_settings? (fun s₀ => hnaming vs s₀ hvalues) hsettings
  obtain ⟨d, hd, houtcomes⟩ := Option.bind_eq_some_iff.1 houtcomes
  rw [toOption_eq_some] at hd houtcomes
  exact ⟨vs, targets, list, d, hvalues, hrequested, hs, hd, houtcomes⟩

theorem hasResults {outcomes : List Generation.Outcome} (hnaming : KeepsNaming t args)
    (h : results? t args = some (s, outcomes)) : HasResults s outcomes := by
  obtain ⟨vs, targets, list, d, -, hrequested, hs, hd, houtcomes⟩ :=
    exists_request_of_results? hnaming h
  obtain ⟨text, -, hd⟩ := bind_eq_ok.1 hd
  obtain ⟨hnodup, hnamed, hforward, hback⟩ := Generation.namedFor_of_run rfl
    (Document.distinct_of_load hd)
    (fun name settings hsettings v hv => keepsNaming_of_targetSettings hs hsettings hv)
    rfl houtcomes
  have hmem : ∀ name, name ∈ targets ↔ ∃ o ∈ outcomes, o.target = name := by
    intro name
    constructor
    · intro hname
      obtain ⟨o, ho, htarget⟩ := hforward (.string name) (List.mem_map_of_mem hname)
      rw [targetOf_requested hs hrequested t vs d hname] at htarget
      exact ⟨o, ho, (Except.ok.inj htarget).symm⟩
    · rintro ⟨o, ho, rfl⟩
      obtain ⟨requested, hmem, htarget⟩ := hback o ho
      obtain ⟨name, hname, rfl⟩ := List.mem_map.1 hmem
      rw [targetOf_requested hs hrequested t vs d hname] at htarget
      rwa [← Except.ok.inj htarget]
  refine ⟨⟨targets, hrequested, hmem⟩, hnodup, hnamed, fun o ho dir s' => eq_of_outDirFor hs ?_⟩
  exact (exists_lookup_of_requested hs hrequested ((hmem _).2 ⟨o, ho, rfl⟩)).2

end Typegen.Command
