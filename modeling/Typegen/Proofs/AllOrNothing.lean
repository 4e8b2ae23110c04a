import Typegen.Proofs.Results

/-!
# All files of a target or none

The targets of a run take their turns one after the other.  The files of a target are all written,
or none of them is and the run goes on with the next target; only a failure that is not handled
breaks the run off, and then the files that were written before it stay.  No target touches the
files of another, since their names end differently.
-/

namespace Typegen.Command

open Files (Tree Path Location Hidden Refused Broken)
open Files.Tree (Change Changes InTheWay)
open Target (RenderedFile)

/-! ## Turns -/

/-- What becomes of a target. -/
inductive Fate where
  | written
  /-- It is left out, and the run goes on. -/
  | leftOut
  /-- The run breaks off. -/
  | broken
  /-- The run broke off before. -/
  | unreached
  deriving DecidableEq

/-- The turn of a target in a run. -/
structure Turn where
  outcome : Generation.Outcome
  before : Tree
  after : Tree
  fate : Fate

/-- The output directory of a target, if it is a text. -/
def outDir? (s : Settings) (target : String) : Option String :=
  match outDirFor s target with
  | .ok (.string dir, _) => some dir
  | _ => none

/-- What becomes of a target whose files were written up to a failure. -/
def fateOf : Option Failure → Fate
  | none => .written
  | some (.fileExists _) => .leftOut
  | some (.obstructed _) => .leftOut
  | some _ => .broken

/-- The turn of a target. -/
def turn (s : Settings) (t : Tree) (o : Generation.Outcome) : Turn :=
  match o.result, outDir? s o.target with
  | .error _, _ => ⟨o, t, t, .leftOut⟩
  | .ok _, none => ⟨o, t, t, .broken⟩
  | .ok out, some dir =>
    let w := Files.writeAll t s.force.isTruthy dir out.files
    ⟨o, t, w.tree, fateOf w.failure⟩

/-- The turns of the targets of a run. -/
def turns (s : Settings) (t : Tree) : List Generation.Outcome → List Turn
  | [] => []
  | o :: rest =>
    let g := turn s t o
    g :: if g.fate = .broken then rest.map fun o => ⟨o, g.after, g.after, .unreached⟩
      else turns s g.after rest

/-- The tree after some turns. -/
def leave (t : Tree) (gs : List Turn) : Tree := gs.foldl (fun _ g => g.after) t

variable {s : Settings} {t t' : Tree} {o : Generation.Outcome}
  {rest outcomes : List Generation.Outcome}

@[simp] theorem outcome_turn (s : Settings) (t : Tree) (o : Generation.Outcome) :
    (turn s t o).outcome = o := by
  unfold turn
  split <;> rfl

@[simp] theorem before_turn (s : Settings) (t : Tree) (o : Generation.Outcome) :
    (turn s t o).before = t := by
  unfold turn
  split <;> rfl

theorem fateOf_ne_unreached (f : Option Failure) : fateOf f ≠ .unreached := by
  unfold fateOf
  split <;> simp

theorem fate_turn_ne (s : Settings) (t : Tree) (o : Generation.Outcome) :
    (turn s t o).fate ≠ .unreached := by
  unfold turn
  split
  · simp
  · simp
  · exact fateOf_ne_unreached _

theorem map_outcome_turns (s : Settings) (t : Tree) (outcomes : List Generation.Outcome) :
    (turns s t outcomes).map (·.outcome) = outcomes := by
  induction outcomes generalizing t with
  | nil => rfl
  | cons o rest ih =>
    rw [turns, List.map_cons, outcome_turn]
    split_ifs
    · rw [List.map_map]
      exact congrArg (o :: ·) (List.map_id' rest)
    · rw [ih]

theorem leave_unreached (t : Tree) (rest : List Generation.Outcome) :
    leave t (rest.map fun o => ⟨o, t, t, .unreached⟩) = t := by
  induction rest with
  | nil => rfl
  | cons o rest ih => exact ih

variable {g : Turn} {l : Location} {content : String}

/-- A target is not reached exactly if one before it broke the run off. -/
theorem unreached_iff {front back : List Turn} (h : turns s t outcomes = front ++ g :: back) :
    g.fate = .unreached ↔ ∃ b ∈ front, b.fate = .broken := by
  induction outcomes generalizing t front with
  | nil => simp [turns] at h
  | cons o rest ih =>
    rw [turns] at h
    rcases front with _ | ⟨b, front⟩
    · obtain ⟨rfl, -⟩ := List.cons.inj h
      simpa using fate_turn_ne s t o
    · rw [List.cons_append, List.cons.injEq] at h
      obtain ⟨rfl, htail⟩ := h
      split_ifs at htail with hbroken
      · have hg : g ∈ front ++ g :: back := List.mem_append_right front List.mem_cons_self
        rw [← htail] at hg
        obtain ⟨o', -, rfl⟩ := List.mem_map.1 hg
        exact iff_of_true rfl ⟨_, List.mem_cons_self, hbroken⟩
      · simp [ih htail, hbroken]

/-! ## Turns and the run -/

/-- What a turn does to the rest of a run. -/
theorem writeTargets_cons (t : Tree) (ok : Bool) (rest : List Generation.Outcome)
    (hsame : ∀ dir s', outDirFor s o.target = .ok (dir, s') → s' = s) :
    ((turn s t o).fate = .written ∧
      (writeTargets s t ok (o :: rest)).1 = (writeTargets s (turn s t o).after ok rest).1 ∧
      (writeTargets s t ok (o :: rest)).2.2 = (writeTargets s (turn s t o).after ok rest).2.2) ∨
    ((turn s t o).fate = .leftOut ∧
      (writeTargets s t ok (o :: rest)).1 = (writeTargets s (turn s t o).after false rest).1 ∧
      (writeTargets s t ok (o :: rest)).2.2 = (writeTargets s (turn s t o).after false rest).2.2) ∨
    ((turn s t o).fate = .broken ∧ (writeTargets s t ok (o :: rest)).1 = (turn s t o).after ∧
      ∃ f, (writeTargets s t ok (o :: rest)).2.2 = .failed f) := by
  rw [writeTargets]
  unfold turn outDir?
  rcases hresult : o.result with f | out
  · exact .inr (.inl ⟨rfl, rfl, rfl⟩)
  rcases hdir : outDirFor s o.target with f | ⟨dir, s'⟩
  · exact .inr (.inr ⟨rfl, rfl, f, rfl⟩)
  obtain rfl := hsame dir s' hdir
  cases dir with
  | string dir =>
    simp only
    rcases hfailure : (Files.writeAll t s'.force.isTruthy dir out.files).failure with _ | f
    · exact .inl ⟨rfl, rfl, rfl⟩
    · cases f
      case fileExists => exact .inr (.inl ⟨rfl, rfl, rfl⟩)
      case obstructed => exact .inr (.inl ⟨rfl, rfl, rfl⟩)
      all_goals exact .inr (.inr ⟨rfl, rfl, _, rfl⟩)
  | null => exact .inr (.inr ⟨rfl, rfl, _, rfl⟩)
  | bool => exact .inr (.inr ⟨rfl, rfl, _, rfl⟩)
  | int => exact .inr (.inr ⟨rfl, rfl, _, rfl⟩)
  | float => exact .inr (.inr ⟨rfl, rfl, _, rfl⟩)
  | array => exact .inr (.inr ⟨rfl, rfl, _, rfl⟩)
  | object => exact .inr (.inr ⟨rfl, rfl, _, rfl⟩)

/-- Writing the targets of a run comes to their turns. -/
theorem writeTargets_turns (t : Tree) (ok : Bool)
    (hsame : ∀ o ∈ outcomes, ∀ dir s', outDirFor s o.target = .ok (dir, s') → s' = s) :
    (writeTargets s t ok outcomes).1 = leave t (turns s t outcomes) ∧
      (((∃ g ∈ turns s t outcomes, g.fate = .broken) ∧
          ∃ f, (writeTargets s t ok outcomes).2.2 = .failed f) ∨
        ((∀ g ∈ turns s t outcomes, g.fate ≠ .broken) ∧
          (writeTargets s t ok outcomes).2.2 =
            .exit (if ok && (turns s t outcomes).all (·.fate = .written) then 0 else 1))) := by
  induction outcomes generalizing t ok with
  | nil => exact ⟨rfl, .inr ⟨by simp [turns], by simp [turns, writeTargets]⟩⟩
  | cons o rest ih =>
    obtain ⟨ho, hrest⟩ := List.forall_mem_cons.1 hsame
    rw [turns]
    rcases writeTargets_cons t ok rest ho with
      ⟨hfate, htree, hending⟩ | ⟨hfate, htree, hending⟩ | ⟨hfate, htree, f, hending⟩
    · obtain ⟨ihtree, ihending⟩ := ih (turn s t o).after ok hrest
      simp only [hfate, reduceCtorEq, if_false]
      refine ⟨htree.trans ihtree, ?_⟩
      rw [hending]
      simpa [hfate] using ihending
    · obtain ⟨ihtree, ihending⟩ := ih (turn s t o).after false hrest
      simp only [hfate, reduceCtorEq, if_false]
      refine ⟨htree.trans ihtree, ?_⟩
      rw [hending]
      simpa [hfate] using ihending
    · simp only [hfate, if_true]
      exact ⟨htree.trans (leave_unreached _ rest).symm,
        .inl ⟨⟨_, List.mem_cons_self, hfate⟩, f, hending⟩⟩

/-! ## One turn -/

/-- The files that were rendered for a target. -/
def filesOf (o : Generation.Outcome) : List RenderedFile :=
  match o.result with
  | .ok out => out.files
  | .error _ => []

/-- Where the files of a target go, with their contents. -/
def locationsOf (s : Settings) (t : Tree) (o : Generation.Outcome) : List (Location × String) :=
  match outDir? s o.target with
  | some dir => Files.locations t (.ofText dir) (filesOf o)
  | none => []

/-- Where the directories lie that the output directory of a target needs. -/
def trailOf (s : Settings) (t : Tree) (o : Generation.Outcome) : List Location :=
  match outDir? s o.target with
  | some dir => t.trail (.ofText dir)
  | none => []

/-- All files of a target are in its output directory. -/
def Complete (s : Settings) (t : Tree) (o : Generation.Outcome) : Prop :=
  ∃ out dir, o.result = .ok out ∧ outDir? s o.target = some dir ∧
    ∀ f ∈ out.files, t.find? ((Path.ofText dir).child f.path) = some (.file f.content)

/-- Why a target is left out: its code could not be generated, or something is in the way of its
files. -/
inductive LeftOut (s : Settings) (t : Tree) (o : Generation.Outcome) : Prop
  | failed {f : Failure} (hresult : o.result = .error f)
  | refused {out : Generation.Output} {dir : String} (hresult : o.result = .ok out)
      (hdir : outDir? s o.target = some dir)
      (hrefused : Refused t s.force.isTruthy (.ofText dir) out.files)

/-- Why a target breaks the run off: its output directory is no text, or the system does not accept
its files. -/
inductive BreaksOff (s : Settings) (t : Tree) (o : Generation.Outcome) : Prop
  | noDirectory {out : Generation.Output} (hresult : o.result = .ok out)
      (hdir : outDir? s o.target = none)
  | files {out : Generation.Output} {dir : String} (hresult : o.result = .ok out)
      (hdir : outDir? s o.target = some dir)
      (hbroken : Broken t s.force.isTruthy (.ofText dir) out.files)

/-- The files that a turn may write. -/
def Turn.writes (s : Settings) (t : Tree) (g : Turn) : List (Location × String) :=
  if g.fate = .written ∨ g.fate = .broken then locationsOf s t g.outcome else []

theorem mem_writes {f : Location × String} (h : f ∈ g.writes s t) :
    (g.fate = .written ∨ g.fate = .broken) ∧ f ∈ locationsOf s t g.outcome := by
  unfold Turn.writes at h
  split_ifs at h with hfate
  · exact ⟨hfate, h⟩
  · cases h

/-- What happens in a turn. -/
structure TurnSpec (s : Settings) (g : Turn) : Prop where
  closed : g.after.Closed
  changes : Changes (g.writes s g.before) (trailOf s g.before g.outcome) g.before g.after
  written : g.fate = .written → Complete s g.after g.outcome
  leftOut : g.fate = .leftOut → LeftOut s g.before g.outcome
  broken : g.fate = .broken → BreaksOff s g.before g.outcome

/-- None of the files of a target is hidden from the check before they are written. -/
def InView (s : Settings) (t : Tree) (o : Generation.Outcome) : Prop :=
  s.force.isTruthy = false → ∀ dir ∈ outDir? s o.target, ∀ f ∈ filesOf o,
    ¬ Hidden t (.ofText dir) f.path

instance (s : Settings) (t : Tree) (o : Generation.Outcome) : Decidable (InView s t o) :=
  inferInstanceAs (Decidable (s.force.isTruthy = false → ∀ dir ∈ outDir? s o.target,
    ∀ f ∈ filesOf o, ¬ Hidden t (.ofText dir) f.path))

theorem fateOf_cases (f : Option Failure) :
    (fateOf f = .written ∧ f = none) ∨
      (fateOf f = .leftOut ∧ ∃ e, f = some e ∧ InTheWay e) ∨
      (fateOf f = .broken ∧ ∃ e, f = some e ∧ ¬ InTheWay e) := by
  unfold fateOf
  split
  · exact .inl ⟨rfl, rfl⟩
  · exact .inr (.inl ⟨rfl, _, rfl, .file _⟩)
  · exact .inr (.inl ⟨rfl, _, rfl, .obstacle _⟩)
  · next e hfile hobstacle =>
    refine .inr (.inr ⟨rfl, e, rfl, ?_⟩)
    rintro (text | text)
    · exact hfile text rfl
    · exact hobstacle text rfl

theorem turnSpec_turn (hclosed : t.Closed) (hnamed : Named o) (hview : InView s t o) :
    TurnSpec s (turn s t o) := by
  obtain ⟨tg, -, hfiles⟩ := hnamed
  unfold turn
  rcases hresult : o.result with f | out
  · exact ⟨hclosed, .refl t, by simp, fun _ => .failed hresult, by simp⟩
  rcases hdir : outDir? s o.target with _ | dir
  · exact ⟨hclosed, .refl t, by simp, by simp, fun _ => .noDirectory hresult hdir⟩
  obtain ⟨hnames, hnodup⟩ := hfiles out hresult
  have hspec : Files.WritesTarget t s.force.isTruthy (.ofText dir) out.files _ :=
    Files.writesTarget_writeAll hclosed (fun f hf => (hnames f hf).isName) hnodup
      fun hforce f hf => hview hforce dir hdir f (by simpa [filesOf, hresult] using hf)
  have hlocations : locationsOf s t o = Files.locations t (.ofText dir) out.files := by
    simp [locationsOf, filesOf, hdir, hresult]
  have htrail : trailOf s t o = t.trail (.ofText dir) := by simp [trailOf, hdir]
  rcases fateOf_cases (Files.writeAll t s.force.isTruthy dir out.files).failure with
    ⟨hfate, hnone⟩ | ⟨hfate, e, hfailure, hway⟩ | ⟨hfate, e, hfailure, hway⟩
  · refine ⟨hspec.closed, ?_, fun _ => ⟨out, dir, hresult, hdir, hspec.present hnone⟩,
      by simp [hfate], by simp [hfate]⟩
    simpa [Turn.writes, hfate, htrail, hlocations] using hspec.changes
  · refine ⟨hspec.closed, ?_, by simp [hfate],
      fun _ => .refused hresult hdir (hspec.refused e hfailure hway).2, by simp [hfate]⟩
    simpa [Turn.writes, hfate, htrail] using (hspec.refused e hfailure hway).1
  · refine ⟨hspec.closed, ?_, by simp [hfate], by simp [hfate],
      fun _ => .files hresult hdir (hspec.broken e hfailure hway)⟩
    simpa [Turn.writes, hfate, htrail, hlocations] using hspec.changes

/-! ## All turns -/

section

variable {files : List (Location × String)} {dirs : List Location}

theorem locationsOf_of_changes (h : Changes files dirs t t') (o : Generation.Outcome) :
    locationsOf s t' o = locationsOf s t o := by
  simp only [locationsOf, Files.locations, h.normalize]

theorem trailOf_of_changes (h : Changes files dirs t t') (o : Generation.Outcome) :
    trailOf s t' o = trailOf s t o := by
  simp only [trailOf, h.trail]

theorem writes_of_changes (h : Changes files dirs t t') (g : Turn) :
    g.writes s t' = g.writes s t := by
  simp only [Turn.writes, locationsOf_of_changes h]

end

theorem mem_locationsOf :
    (l, content) ∈ locationsOf s t o ↔ ∃ out dir, o.result = .ok out ∧
      outDir? s o.target = some dir ∧ ∃ f ∈ out.files,
        t.normalize (.ofText dir) ++ [f.path] = l ∧ f.content = content := by
  unfold locationsOf filesOf
  rcases outDir? s o.target with _ | dir
  · simp
  · rcases o.result with f | out
    · simp [Files.locations]
    · simp [Files.locations]

/-- Files of different targets never lie at one location. -/
theorem target_of_location {o' : Generation.Outcome} (h : Named o) (h' : Named o')
    {content' : String} (hl : (l, content) ∈ locationsOf s t o)
    (hl' : (l, content') ∈ locationsOf s t o') : o.target = o'.target := by
  obtain ⟨tg, htg, hfiles⟩ := h
  obtain ⟨tg', htg', hfiles'⟩ := h'
  obtain ⟨out, dir, hout, -, f, hf, rfl, -⟩ := mem_locationsOf.1 hl
  obtain ⟨out', dir', hout', -, f', hf', heq, -⟩ := mem_locationsOf.1 hl'
  have hpath : f'.path = f.path := List.singleton_inj.1 (List.append_inj' heq rfl).2
  have hname := (hfiles' out' hout').1 f' hf'
  rw [hpath] at hname
  rw [htg, htg', ((hfiles out hout).1 f hf).unique hname]

/-- Different files of a target never lie at one location. -/
theorem content_of_location (h : Named o) {content' : String}
    (hl : (l, content) ∈ locationsOf s t o) (hl' : (l, content') ∈ locationsOf s t o) :
    content = content' := by
  obtain ⟨tg, -, hfiles⟩ := h
  obtain ⟨out, dir, hout, hdir, f, hf, rfl, rfl⟩ := mem_locationsOf.1 hl
  obtain ⟨out', dir', hout', hdir', f', hf', heq, rfl⟩ := mem_locationsOf.1 hl'
  obtain rfl := Except.ok.inj (hout.symm.trans hout')
  obtain rfl := Option.some.inj (hdir.symm.trans hdir')
  have hpath : f'.path = f.path := List.singleton_inj.1 (List.append_inj' heq rfl).2
  rw [List.inj_on_of_nodup_map (hfiles out hout).2 hf' hf hpath]

theorem Complete.of_changes {files : List (Location × String)} {dirs : List Location}
    (h : Complete s t o) (hnamed : Named o) (hchanges : Changes files dirs t t')
    (hne : ∀ l content other, (l, content) ∈ locationsOf s t o → (l, other) ∉ files) :
    Complete s t' o := by
  obtain ⟨tg, -, hfiles⟩ := hnamed
  obtain ⟨out, dir, hresult, hdir, hpresent⟩ := h
  refine ⟨out, dir, hresult, hdir, fun f hf => ?_⟩
  have hname := ((hfiles out hresult).1 f hf).isName
  refine hchanges.find?_file (hpresent f hf) fun other => hne _ f.content other ?_
  exact mem_locationsOf.2 ⟨out, dir, hresult, hdir, f, hf, (Tree.normalize_child hname.2).symm, rfl⟩

/-- What happens in all turns of a run. -/
structure TurnsSpec (s : Settings) (t : Tree) (gs : List Turn) : Prop where
  turn : ∀ g ∈ gs, TurnSpec s g
  changes : Changes (gs.flatMap (·.writes s t)) (gs.flatMap fun g => trailOf s t g.outcome) t
    (leave t gs)
  complete : ∀ g ∈ gs, g.fate = .written → Complete s (leave t gs) g.outcome

theorem turnSpec_unreached (hclosed : t.Closed) (o : Generation.Outcome) :
    TurnSpec s ⟨o, t, t, .unreached⟩ :=
  ⟨hclosed, .refl t, by simp, by simp, by simp⟩

/-- A turn that breaks the run off is the last one in which anything happens. -/
theorem turnsSpec_broken (hspec : TurnSpec s g) (hbroken : g.fate = .broken)
    (rest : List Generation.Outcome) :
    TurnsSpec s g.before (g :: rest.map fun o => ⟨o, g.after, g.after, .unreached⟩) := by
  have hleave : leave g.before
      (g :: rest.map fun o => ⟨o, g.after, g.after, .unreached⟩) = g.after :=
    leave_unreached g.after rest
  refine ⟨fun h hh => ?_, ?_, fun h hh hwritten => ?_⟩
  · rcases List.mem_cons.1 hh with rfl | hh
    · exact hspec
    · obtain ⟨o, -, rfl⟩ := List.mem_map.1 hh
      exact turnSpec_unreached hspec.closed o
  · rw [hleave]
    exact hspec.changes.mono (List.subset_append_left _ _) (List.subset_append_left _ _)
  · rcases List.mem_cons.1 hh with rfl | hh
    · rw [hbroken] at hwritten
      cases hwritten
    · obtain ⟨o, -, rfl⟩ := List.mem_map.1 hh
      cases hwritten

/-- The turns that follow one leave its files alone. -/
theorem turnsSpec_cons {gs : List Turn} (hspec : TurnSpec s g) (hnamed : Named g.outcome)
    (hothers : ∀ h ∈ gs, Named h.outcome ∧ h.outcome.target ≠ g.outcome.target)
    (hrest : TurnsSpec s g.after gs) : TurnsSpec s g.before (g :: gs) := by
  have hchanges := hrest.changes
  simp only [writes_of_changes hspec.changes, trailOf_of_changes hspec.changes] at hchanges
  refine ⟨List.forall_mem_cons.2 ⟨hspec, hrest.turn⟩, ?_, fun h hh hwritten => ?_⟩
  · exact (hspec.changes.mono (List.subset_append_left _ _) (List.subset_append_left _ _)).trans
      (hchanges.mono (List.subset_append_right _ _) (List.subset_append_right _ _))
  · rcases List.mem_cons.1 hh with rfl | hh
    · refine (hspec.written hwritten).of_changes hnamed hrest.changes
        fun l content other hl hmem => ?_
      obtain ⟨h', hh', hmem⟩ := List.mem_flatMap.1 hmem
      exact (hothers h' hh').2 (target_of_location (hothers h' hh').1 hnamed (mem_writes hmem).2 hl)
    · exact hrest.complete h hh hwritten

theorem turnsSpec_turns (hclosed : t.Closed) (hnamed : ∀ o ∈ outcomes, Named o)
    (hnodup : (outcomes.map (·.target)).Nodup)
    (hview : ∀ g ∈ turns s t outcomes, g.fate ≠ .unreached → InView s g.before g.outcome) :
    TurnsSpec s t (turns s t outcomes) := by
  induction outcomes generalizing t with
  | nil => exact ⟨by simp [turns], .refl t, by simp [turns]⟩
  | cons o rest ih =>
    rw [List.map_cons, List.nodup_cons] at hnodup
    obtain ⟨ho, hrestNamed⟩ := List.forall_mem_cons.1 hnamed
    rw [turns] at hview ⊢
    -- The turn of the first target, and what the others make of the tree it leaves.
    obtain ⟨hviewHead, hviewRest⟩ := List.forall_mem_cons.1 hview
    have hspec := turnSpec_turn hclosed ho (by simpa using hviewHead (fate_turn_ne s t o))
    split_ifs at hviewRest ⊢ with hbroken
    · simpa using turnsSpec_broken hspec hbroken rest
    · have hrest := ih hspec.closed hrestNamed hnodup.2 hviewRest
      have hothers : ∀ h ∈ turns s (turn s t o).after rest,
          Named h.outcome ∧ h.outcome.target ≠ (turn s t o).outcome.target := by
        intro h hh
        have hmem : h.outcome ∈ rest := by
          rw [← map_outcome_turns s (turn s t o).after rest]
          exact List.mem_map_of_mem hh
        refine ⟨hrestNamed _ hmem, fun heq => hnodup.1 ?_⟩
        rw [outcome_turn] at heq
        exact List.mem_map.2 ⟨h.outcome, hmem, heq⟩
      simpa using turnsSpec_cons hspec (by simpa using ho) hothers hrest

section

variable {gs : List Turn} {g : Turn} {l : Location} {new content : String}

/-- A file of a target is written only in the turn of the target. -/
theorem TurnsSpec.change (hspec : TurnsSpec s t gs) (hnamed : ∀ g ∈ gs, Named g.outcome)
    (hnodup : (gs.map (·.outcome.target)).Nodup) (hg : g ∈ gs)
    (hl : (l, new) ∈ locationsOf s t g.outcome) :
    Change (g.writes s t) (gs.flatMap fun g => trailOf s t g.outcome) l (t.get? l)
      ((leave t gs).get? l) := by
  have hentry := hspec.changes.entry l
  revert hentry
  generalize t.get? l = before, (leave t gs).get? l = after
  rintro (_ | ⟨hmem, hne⟩ | hmem)
  · exact .same _
  · obtain ⟨h, hh, hmem⟩ := List.mem_flatMap.1 hmem
    have htarget := target_of_location (hnamed h hh) (hnamed g hg) (mem_writes hmem).2 hl
    rw [List.inj_on_of_nodup_map hnodup hh hg htarget] at hmem
    exact .file hmem hne
  · exact .directory hmem

theorem TurnsSpec.untouched (hspec : TurnsSpec s t gs) (hnamed : ∀ g ∈ gs, Named g.outcome)
    (hnodup : (gs.map (·.outcome.target)).Nodup) (hg : g ∈ gs)
    (hfate : g.fate = .leftOut ∨ g.fate = .unreached)
    (hl : (l, new) ∈ locationsOf s t g.outcome) :
    (leave t gs).get? l = some (.file content) ↔ t.get? l = some (.file content) := by
  have hchange := hspec.change hnamed hnodup hg hl
  have hnothing : g.writes s t = [] := by
    rcases hfate with hfate | hfate <;> simp [Turn.writes, hfate]
  rw [hnothing] at hchange
  revert hchange
  generalize t.get? l = before, (leave t gs).get? l = after
  rintro (_ | ⟨hmem, -⟩ | _)
  · rfl
  · cases hmem
  · -- A directory may be made in the place of a file, but no file comes of that.
    simp

theorem TurnsSpec.content_eq (hspec : TurnsSpec s t gs) (hnamed : ∀ g ∈ gs, Named g.outcome)
    (hnodup : (gs.map (·.outcome.target)).Nodup) (hg : g ∈ gs)
    (hl : (l, new) ∈ locationsOf s t g.outcome)
    (hget : (leave t gs).get? l = some (.file content)) :
    content = new ∨ t.get? l = some (.file content) := by
  have hchange := hspec.change hnamed hnodup hg hl
  rw [hget] at hchange
  revert hchange
  generalize t.get? l = before
  rintro (_ | ⟨hmem, -⟩)
  · exact .inr rfl
  · exact .inl (content_of_location (hnamed g hg) (mem_writes hmem).2 hl)

theorem TurnsSpec.changed (hspec : TurnsSpec s t gs) (hne : (leave t gs).get? l ≠ t.get? l) :
    (∃ g ∈ gs, (g.fate = .written ∨ g.fate = .broken) ∧ ∃ content,
      (l, content) ∈ locationsOf s t g.outcome ∧ (leave t gs).get? l = some (.file content)) ∨
    (t.get? l = none ∧ (leave t gs).get? l = some .directory ∧
      ∃ g ∈ gs, l ∈ trailOf s t g.outcome) := by
  have hentry := hspec.changes.entry l
  revert hentry hne
  generalize t.get? l = before, (leave t gs).get? l = after
  rintro hne (_ | @⟨_, content, hmem, -⟩ | hmem)
  · exact absurd rfl hne
  · obtain ⟨g, hg, hmem⟩ := List.mem_flatMap.1 hmem
    exact .inl ⟨g, hg, (mem_writes hmem).1, content, (mem_writes hmem).2, rfl⟩
  · exact .inr ⟨rfl, rfl, List.mem_flatMap.1 hmem⟩

end

/-! ## The run -/

/-- A run that has results is all or nothing for each target. -/
structure AllOrNothing (s : Settings) (t : Tree) (outcomes : List Generation.Outcome)
    (r : Outcome) : Prop where
  /-- The targets are those that are requested. -/
  requested : ∃ targets, requestedTargets s = .ok targets ∧
    ∀ name, name ∈ targets ↔ ∃ o ∈ outcomes, o.target = name
  /-- Each target has one turn. -/
  inTurn : (turns s t outcomes).map (·.outcome) = outcomes ∧ (outcomes.map (·.target)).Nodup
  written : ∀ g ∈ turns s t outcomes, g.fate = .written → Complete s r.tree g.outcome
  leftOut : ∀ g ∈ turns s t outcomes, g.fate = .leftOut → LeftOut s g.before g.outcome
  /-- No file of a target that was left out or not reached is created or changed. -/
  untouched : ∀ g ∈ turns s t outcomes, g.fate = .leftOut ∨ g.fate = .unreached →
    ∀ f ∈ locationsOf s t g.outcome, ∀ content,
      r.tree.get? f.1 = some (.file content) ↔ t.get? f.1 = some (.file content)
  broken : ∀ g ∈ turns s t outcomes, g.fate = .broken → BreaksOff s g.before g.outcome
  /-- Each file of a target that broke the run off is as it was before, or has its new content. -/
  halfway : ∀ g ∈ turns s t outcomes, g.fate = .broken → ∀ f ∈ locationsOf s t g.outcome,
    ∀ content, r.tree.get? f.1 = some (.file content) →
      content = f.2 ∨ t.get? f.1 = some (.file content)
  /-- A target is reached unless one before it broke the run off. -/
  unreached : ∀ front g back, turns s t outcomes = front ++ g :: back →
    (g.fate = .unreached ↔ ∃ b ∈ front, b.fate = .broken)
  /-- All that changes are files that are written and directories that they need. -/
  changed : ∀ l, r.tree.get? l ≠ t.get? l →
    (∃ g ∈ turns s t outcomes, (g.fate = .written ∨ g.fate = .broken) ∧
      ∃ content, (l, content) ∈ locationsOf s t g.outcome ∧ r.tree.get? l = some (.file content)) ∨
    (t.get? l = none ∧ r.tree.get? l = some .directory ∧
      ∃ g ∈ turns s t outcomes, l ∈ trailOf s t g.outcome)
  failed : (∃ f, r.ending = .failed f) ↔ ∃ g ∈ turns s t outcomes, g.fate = .broken
  exitCode : r.exitCode = 0 ↔ ∀ g ∈ turns s t outcomes, g.fate = .written

theorem exitCode_eq_zero (r : Outcome) : r.exitCode = 0 ↔ r.ending = .exit 0 := by
  unfold Outcome.exitCode
  split <;> simp [*]

/-- Writing results is all or nothing for each target. -/
theorem allOrNothing_of_hasResults {r : Outcome} (hclosed : t.Closed)
    (hresults : HasResults s outcomes)
    (hview : ∀ g ∈ turns s t outcomes, g.fate ≠ .unreached → InView s g.before g.outcome)
    (htree : r.tree = (writeTargets s t true outcomes).1)
    (hending : r.ending = (writeTargets s t true outcomes).2.2) :
    AllOrNothing s t outcomes r := by
  have houtcomes := map_outcome_turns s t outcomes
  have hnamed : ∀ g ∈ turns s t outcomes, Named g.outcome := fun g hg =>
    hresults.named _ (houtcomes ▸ List.mem_map_of_mem hg)
  have hnodup : ((turns s t outcomes).map (·.outcome.target)).Nodup := by
    have hnodup := hresults.nodup
    rwa [← houtcomes, List.map_map] at hnodup
  have hspec := turnsSpec_turns hclosed hresults.named hresults.nodup hview
  obtain ⟨hleave, hend⟩ := writeTargets_turns t true hresults.outDir
  rw [← htree] at hleave
  rw [← hending] at hend
  constructor
  case requested => exact hresults.requested
  case inTurn => exact ⟨houtcomes, hresults.nodup⟩
  case written =>
    rw [hleave]
    exact hspec.complete
  case leftOut => exact fun g hg => (hspec.turn g hg).leftOut
  case broken => exact fun g hg => (hspec.turn g hg).broken
  case unreached => exact fun front g back => unreached_iff
  case untouched =>
    rw [hleave]
    exact fun g hg hfate f hf content => hspec.untouched hnamed hnodup hg hfate hf
  case halfway =>
    rw [hleave]
    exact fun g hg _ f hf content => hspec.content_eq hnamed hnodup hg hf
  case changed =>
    rw [hleave]
    exact fun l => hspec.changed
  case failed =>
    rcases hend with ⟨hbroken, hfailed⟩ | ⟨hnone, hexit⟩
    · exact iff_of_true hfailed hbroken
    · refine iff_of_false (fun ⟨f, hf⟩ => ?_) fun ⟨g, hg, hbroken⟩ => hnone g hg hbroken
      rw [hexit] at hf
      cases hf
  case exitCode =>
    rw [exitCode_eq_zero]
    rcases hend with ⟨⟨g, hg, hbroken⟩, f, hfailed⟩ | ⟨-, hexit⟩
    · refine iff_of_false (by simp [hfailed]) fun hall => ?_
      rw [hall g hg] at hbroken
      cases hbroken
    · rw [hexit]
      simp

/-- None of the files that a run is about to write is hidden from the check. -/
def AllInView (t : Tree) (args : List String) : Prop :=
  ∀ r ∈ results? t args, ∀ g ∈ turns r.1 t r.2, g.fate ≠ .unreached →
    InView r.1 g.before g.outcome

instance (t : Tree) (args : List String) : Decidable (AllInView t args) :=
  inferInstanceAs (Decidable (∀ r ∈ results? t args, ∀ g ∈ turns r.1 t r.2,
    g.fate ≠ .unreached → InView r.1 g.before g.outcome))

/-- The document that a parameter names, with what its escapes spell. -/
def document? (t : Tree) (vs : Values) (read : String → Except Failure Json.Raw) (name : String) :
    Option Json.Raw :=
  match valueOf vs name with
  | .string path => (readText t path >>= read).toOption
  | _ => none

/-- No string of the configuration or the schema has half of a surrogate pair, which no file can
hold: a run breaks off at the file that is to have it. -/
def ReadsUnicode (t : Tree) (args : List String) : Prop :=
  ∀ vs ∈ values? t args,
    (∀ v ∈ document? t vs Document.parseRaw "config", (Document.unicode v).isOk = true) ∧
    ∀ v ∈ document? t vs Document.loadRaw "path", (Document.unicode v).isOk = true

instance (t : Tree) (args : List String) : Decidable (ReadsUnicode t args) := by
  delta ReadsUnicode
  infer_instance

/-- A directory with the schema `{"definitions": {"a": {}, "b": {}}}`, and with a file that is not
to be overwritten. -/
def cluttered : Tree where
  current := ["desk"]
  entries := [
    (["desk", "s.json"],
      .file "\x7b\"definitions\": \x7b\"a\": \x7b\x7d, \"b\": \x7b\x7d\x7d\x7d"),
    (["desk", "x"], .directory), (["desk", "x", "B.java"], .file "mine")]

/-- Code is asked for in a new directory, and in one with a file that stands in the way. -/
def mixed : List String := ["--ts-out", "o", "--java-out", "x", "s.json"]

/-- The output directory steps back out of a directory that is missing. -/
def detour : List String := ["--java-out", "x/y/..", "s.json"]

/-- The output directory of the first target lies below a file. -/
def stuck : List String := ["--ts-out", "s.json/x", "--java-out", "o", "s.json"]

end Typegen.Command
