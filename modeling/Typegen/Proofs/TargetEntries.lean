import Mathlib.Data.List.Find
import Typegen.Command.Run
import Typegen.Proofs.Outcome
import Typegen.Proofs.Registrations

/-!
# Which settings a target gets

Settings may be kept under any name or alias of a target.  A generator takes the first entry whose
key stands for the target.  The command first puts every entry under the name its key stands for,
so that an entry takes the place of those before it, and the generator then finds the last one.  The
two agree when the first and the last entry are the same, and so whenever no two keys stand for one
target (`targetEntry_canonical`).
-/

namespace Typegen

/-- Whether a key stands for a target. -/
def Registry.standsFor (r : Registry) (name key : String) : Bool :=
  (r.resolveName key).toOption = some name

/-- What is kept for a target, under any key that stands for it. -/
def Registry.entriesFor (r : Registry) (list : List (String × TargetEntry)) (name : String) :
    List TargetEntry :=
  (list.filter fun e => r.standsFor name e.1).map Prod.snd

namespace Registry

variable {r : Registry} {list : List (String × TargetEntry)} {name key : String}

theorem standsFor_iff : r.standsFor name key = true ↔ r.resolveName key = .ok name := by
  rw [standsFor, decide_eq_true_iff]
  cases r.resolveName key with
  | ok resolved => simp [Except.toOption]
  | error f => simp [Except.toOption]

theorem entriesFor_cons (e : String × TargetEntry) : r.entriesFor (e :: list) name =
    (if r.standsFor name e.1 then [e.2] else []) ++ r.entriesFor list name := by
  unfold entriesFor
  rw [List.filter_cons]
  by_cases h : r.standsFor name e.1 = true
  · rw [if_pos h, if_pos h]
    rfl
  · rw [if_neg h, if_neg h]
    rfl

/-- In a table whose keys are registered names, a target has the entry under its own name. -/
theorem Sound.head?_entriesFor (h : r.Sound) (hlist : ∀ e ∈ list, has r.factories e.1 = true) :
    (r.entriesFor list name).head? = list.lookup name := by
  induction list with
  | nil => rfl
  | cons e list ih =>
    rw [List.forall_mem_cons] at hlist
    rw [entriesFor_cons, lookup_cons_eq e.1 name e.2]
    have hstands : r.standsFor name e.1 = true ↔ name = e.1 := by
      rw [standsFor_iff, h.resolveName_self hlist.1, Except.ok.injEq, eq_comm]
    by_cases hname : name = e.1
    · rw [if_pos (hstands.2 hname), if_pos hname]
      rfl
    · rw [if_neg (mt hstands.1 hname), if_neg hname]
      exact ih hlist.2

end Registry

open Generation (Request)

/-! ## The generator -/

/-- A generator takes the first entry that is kept for a target. -/
theorem Generation.Request.targetEntry_eq {r : Request} {list : List (String × TargetEntry)}
    (hlist : r.settings.targets = .entries list) (name : String) :
    r.targetEntry name = .ok ((r.registry.entriesFor list name).head?.getD (.settings {})) := by
  unfold targetEntry
  rw [hlist]
  simp only [TargetTable.toList, bind, Except.bind]
  rw [@List.find?_congr _ _ (fun e => r.registry.standsFor name e.1) list,
    Registry.entriesFor, List.head?_map, List.head?_filter]
  · cases list.find? fun e => r.registry.standsFor name e.1 with
    | some e => rfl
    | none => rfl
  · intro e _
    cases hkey : r.registry.resolveName e.1 with
    | ok resolved =>
      rw [Registry.exists_resolveName_iff.1 ⟨resolved, hkey⟩, Registry.standsFor, hkey]
      simp [Except.toOption]
    | error f =>
      rw [Registry.standsFor, hkey]
      cases r.registry.isSupported e.1 <;> rfl

namespace Command

variable {registry : Registry} {list table : List (String × TargetEntry)} {s : Settings}

/-! ## The command -/

/-- Rebuilding a table under registered names succeeds when all keys are known, and of the entries
for one target the last counts. -/
theorem exists_foldlM_canonical (hsound : registry.Sound)
    (htable : ∀ e ∈ table, Registry.has registry.factories e.1 = true)
    (hknown : ∀ e ∈ list, registry.isSupported e.1 = true) :
    ∃ result, (list.foldlM (fun table (e : String × TargetEntry) => do
        return Json.setMember (← registry.resolveName e.1) e.2 table) table) = .ok result ∧
      (∀ e ∈ result, Registry.has registry.factories e.1 = true) ∧
      ∀ name, result.lookup name =
        (registry.entriesFor list name).getLast?.or (table.lookup name) := by
  induction list generalizing table with
  | nil => exact ⟨table, rfl, htable, fun name => rfl⟩
  | cons e list ih =>
    rw [List.forall_mem_cons] at hknown
    obtain ⟨key, hkey⟩ := Registry.exists_resolveName_iff.2 hknown.1
    have hnext : ∀ e' ∈ Json.setMember key e.2 table,
        Registry.has registry.factories e'.1 = true := by
      intro e' he'
      rcases mem_setMember he' with rfl | he'
      · exact hsound.has_of_resolveName hkey
      · exact htable e' he'
    obtain ⟨result, hresult, hnames, hlookup⟩ := ih hnext hknown.2
    refine ⟨result, ?_, hnames, fun name => ?_⟩
    · rw [List.foldlM_cons, hkey]
      exact hresult
    · have hstands : registry.standsFor name e.1 = true ↔ name = key := by
        rw [Registry.standsFor_iff, hkey, Except.ok.injEq, eq_comm]
      rw [hlookup name, lookup_setMember, Registry.entriesFor_cons, List.getLast?_append]
      by_cases hname : name = key
      · rw [if_pos hname, if_pos (hstands.2 hname)]
        cases (registry.entriesFor list name).getLast? <;> rfl
      · rw [if_neg hname, if_neg (mt hstands.1 hname)]
        cases (registry.entriesFor list name).getLast? <;> rfl

theorem exists_canonicalTargets (hsound : registry.Sound) (hlist : s.targets = .entries list)
    (hknown : ∀ e ∈ list, registry.isSupported e.1 = true) :
    ∃ table, canonicalTargets registry s = .ok { s with targets := .entries table } ∧
      (∀ e ∈ table, Registry.has registry.factories e.1 = true) ∧
      ∀ name, table.lookup name = (registry.entriesFor list name).getLast? := by
  have hempty : ∀ e ∈ ([] : List (String × TargetEntry)),
      Registry.has registry.factories e.1 = true := by simp
  obtain ⟨table, htable, hnames, hlookup⟩ := exists_foldlM_canonical hsound hempty hknown
  refine ⟨table, ?_, hnames, fun name => ?_⟩
  · rw [canonicalTargets, hlist, bind_eq_ok]
    exact ⟨list, rfl, bind_eq_ok.2 ⟨table, htable, rfl⟩⟩
  · rw [hlookup name]
    cases (registry.entriesFor list name).getLast? <;> rfl

/-- After the command has put every entry under the name of its target, a generator takes the last
one that is kept for a target. -/
theorem exists_canonical_targetEntry {r : Request} (hsound : r.registry.Sound)
    (hlist : r.settings.targets = .entries list)
    (hknown : ∀ e ∈ list, r.registry.isSupported e.1 = true) :
    ∃ s, canonicalTargets r.registry r.settings = .ok s ∧ ∀ name,
      { r with settings := s }.targetEntry name =
        .ok ((r.registry.entriesFor list name).getLast?.getD (.settings {})) := by
  obtain ⟨table, hs, hnames, hlookup⟩ := exists_canonicalTargets hsound hlist hknown
  refine ⟨_, hs, fun name => ?_⟩
  rw [Request.targetEntry_eq (show _ = TargetTable.entries table from rfl) name]
  show Except.ok ((r.registry.entriesFor table name).head?.getD _) = _
  rw [hsound.head?_entriesFor hnames, hlookup name]

/-- Which settings a target gets.  With settings all of whose keys are known, a generator takes the
first entry that is kept for a target, and after the command has put every entry under the name of
its target, it takes the last one.  These are the same just when the first and the last entry
are. -/
theorem targetEntry_canonical {r : Request} {list : List (String × TargetEntry)}
    (hregistry : r.registry.Reached) (hlist : r.settings.targets = .entries list)
    (hknown : ∀ e ∈ list, r.registry.isSupported e.1 = true) :
    ∃ s, canonicalTargets r.registry r.settings = .ok s ∧ ∀ name,
      r.targetEntry name = .ok ((r.registry.entriesFor list name).head?.getD (.settings {})) ∧
      { r with settings := s }.targetEntry name =
        .ok ((r.registry.entriesFor list name).getLast?.getD (.settings {})) ∧
      ({ r with settings := s }.targetEntry name = r.targetEntry name ↔
        (r.registry.entriesFor list name).head? = (r.registry.entriesFor list name).getLast?) := by
  obtain ⟨s, hs, hlast⟩ := exists_canonical_targetEntry hregistry.sound hlist hknown
  refine ⟨s, hs, fun name => ?_⟩
  have hfirst := Request.targetEntry_eq hlist name
  refine ⟨hfirst, hlast name, ?_⟩
  rw [hfirst, hlast, Except.ok.injEq]
  cases r.registry.entriesFor list name with
  | nil => simp
  | cons e es =>
    rw [List.getLast?_eq_some_getLast (List.cons_ne_nil e es)]
    simp [eq_comm]

/-- The entry of a target whose files are in a package. -/
def packaged (package : String) : TargetEntry := .settings { package := .string package }

/-- A request with two entries for one target. -/
def twicePackaged : Request where
  rootName := .string "Root"
  document := .object []
  settings.targets :=
    .entries [("JAVA", packaged "a"), ("golang", packaged "c"), ("java", packaged "b")]

theorem reached_twicePackaged : twicePackaged.registry.Reached :=
  .register (.register (.register (.register .empty ..) ..) ..) ..

theorem isSupported_twicePackaged :
    ∀ e ∈ [("JAVA", packaged "a"), ("golang", packaged "c"), ("java", packaged "b")],
      twicePackaged.registry.isSupported e.1 = true := by
  apply List.all_eq_true.1
  decide

theorem entriesFor_twicePackaged :
    twicePackaged.registry.entriesFor
        [("JAVA", packaged "a"), ("golang", packaged "c"), ("java", packaged "b")] "java" =
      [packaged "a", packaged "b"] := by
  have hfirst : twicePackaged.registry.standsFor "java" "JAVA" = true := by decide
  have hother : twicePackaged.registry.standsFor "java" "golang" = false := by decide
  have hlast : twicePackaged.registry.standsFor "java" "java" = true := by decide
  simp [Registry.entriesFor, hfirst, hother, hlast]

theorem targetEntry_canonical_twicePackaged :
    twicePackaged.registry.Reached ∧ twicePackaged.registry.isSupported "golang" = true ∧
      ∃ s, canonicalTargets twicePackaged.registry twicePackaged.settings = .ok s ∧
        { twicePackaged with settings := s }.targetEntry "java" = .ok (packaged "b") ∧
        { twicePackaged with settings := s }.targetEntry "python" =
          twicePackaged.targetEntry "python" := by
  obtain ⟨s, hs, hentry⟩ :=
    targetEntry_canonical reached_twicePackaged rfl isSupported_twicePackaged
  have hknown := isSupported_twicePackaged ("golang", packaged "c") (by simp)
  refine ⟨reached_twicePackaged, hknown, s, hs, ?_, ?_⟩
  · rw [(hentry "java").2.1, entriesFor_twicePackaged]
    rfl
  · refine (hentry "python").2.2.2 ?_
    have hfirst : twicePackaged.registry.standsFor "python" "JAVA" = false := by decide
    have hother : twicePackaged.registry.standsFor "python" "golang" = false := by decide
    have hlast : twicePackaged.registry.standsFor "python" "java" = false := by decide
    simp [Registry.entriesFor, hfirst, hother, hlast]

/-- The settings of a target can change when they are put under its name. -/
theorem targetEntry_ne_canonical :
    ∃ s, canonicalTargets twicePackaged.registry twicePackaged.settings = .ok s ∧
      twicePackaged.targetEntry "java" = .ok (packaged "a") ∧
      { twicePackaged with settings := s }.targetEntry "java" = .ok (packaged "b") ∧
      packaged "a" ≠ packaged "b" := by
  obtain ⟨s, hs, hentry⟩ :=
    exists_canonical_targetEntry reached_twicePackaged.sound rfl isSupported_twicePackaged
  refine ⟨s, hs, ?_, ?_, by simp [packaged]⟩
  · rw [Request.targetEntry_eq rfl, entriesFor_twicePackaged]
    rfl
  · rw [hentry, entriesFor_twicePackaged]
    rfl

end Command

end Typegen
