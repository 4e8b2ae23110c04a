import Typegen.Generation
import Typegen.Proofs.Keys
import Typegen.Proofs.Outcome

/-!
# Keys of a configuration that are no options

A configuration is loaded key by key, and a key that is no option is passed over (`ofJson_restrict`).
The exceptions are the reserved keys, which settings have for other reasons: two that cannot be set,
one that replaces all options at once, and the names of operations, which do not work any more when a
value is put in their place.  So a configuration works as its options alone do when it has no reserved
keys, and, the replacing key apart, only then (`avoids_of_works`).
-/

namespace Typegen

/-! ## Restricted configurations -/

namespace TargetSettings

/-- The options of a target. -/
def optionKeys : List String := ["out_dir", "package", "naming"]

/-- Keys that are no options of a target and yet take effect. -/
def reservedKeys : List String := ["__class__", "__weakref__", replacementKey, "to_dict"]

/-- The settings of a target with only some of its keys. -/
def restrict (keys : List String) : Json → Json
  | .object options => .object (options.filter fun o => decide (o.1 ∈ keys))
  | v => v

end TargetSettings

namespace Settings

/-- The options of a run. -/
def optionKeys : List String := ["root_name", "add_generation_comment", "force", "targets"]

/-- Keys that are no options of a run and yet take effect. -/
def reservedKeys : List String :=
  ["__class__", "__weakref__", replacementKey, "to_dict", "target"]

/-- The settings of all targets with only some of their keys. -/
def restrictTargets (targetKeys : List String) : Json → Json
  | .object targets => .object (targets.map fun e => (e.1, TargetSettings.restrict targetKeys e.2))
  | v => v

/-- A member of a configuration with only some of the keys of its targets. -/
def restrictMember (targetKeys : List String) (m : String × Json) : String × Json :=
  if m.1 = "targets" then (m.1, restrictTargets targetKeys m.2) else m

/-- A configuration with only some of its keys and only some of those of its targets. -/
def restrict (keys targetKeys : List String) (d : List (String × Json)) : List (String × Json) :=
  (d.filter fun m => decide (m.1 ∈ keys)).map (restrictMember targetKeys)

/-- A configuration has none of some keys, and its targets have none of some others. -/
structure Avoids (keys targetKeys : List String) (d : List (String × Json)) : Prop where
  run : ∀ m ∈ d, m.1 ∉ keys
  target : ∀ targets name options, ("targets", .object targets) ∈ d →
    (name, .object options) ∈ targets → ∀ o ∈ options, o.1 ∉ targetKeys

/-- What can be done with loaded settings has the same outcome for both. -/
structure Alike (x y : Except Failure Settings) : Prop where
  list : x >>= Settings.list = y >>= Settings.list
  target : ∀ name, (x >>= fun s => s.target name) = y >>= fun s => s.target name
  run : ∀ (r : Generation.Request) (schedule : List Nat),
    x.map (fun s => Generation.run { r with settings := s } schedule) =
      y.map fun s => Generation.run { r with settings := s } schedule

theorem Alike.refl (x : Except Failure Settings) : Alike x x :=
  ⟨rfl, fun _ => rfl, fun _ _ => rfl⟩

end Settings

/-! ## Keys that are passed over -/

section Fold

variable {ε σ α : Type} {f g : σ → α → Except ε σ} {xs : List α}

/-- Items at which nothing happens can be left out. -/
theorem foldlM_filter {p : α → Bool} (h : ∀ x ∈ xs, p x = false → ∀ s, f s x = .ok s) (s : σ) :
    (xs.filter p).foldlM f s = xs.foldlM f s := by
  induction xs generalizing s with
  | nil => rfl
  | cons x xs ih =>
    rw [List.forall_mem_cons] at h
    cases hx : p x with
    | true =>
      rw [List.filter_cons_of_pos hx, List.foldlM_cons, List.foldlM_cons]
      exact congrArg (f s x >>= ·) (funext fun s' => ih h.2 s')
    | false =>
      rw [List.filter_cons_of_neg (by simp [hx]), List.foldlM_cons, h.1 hx s, ok_bind]
      exact ih h.2 s

theorem foldlM_congr (h : ∀ x ∈ xs, ∀ s, f s x = g s x) (s : σ) :
    xs.foldlM f s = xs.foldlM g s := by
  induction xs generalizing s with
  | nil => rfl
  | cons x xs ih =>
    rw [List.forall_mem_cons] at h
    rw [List.foldlM_cons, List.foldlM_cons, h.1 s]
    exact congrArg (g s x >>= ·) (funext fun s' => ih h.2 s')

end Fold

namespace TargetSettings

theorem ofJson_object (options : List (String × Json)) :
    ofJson (.object options) = options.foldlM (fun t o => t.setOption o.1 o.2) {} := by
  cases options with
  | nil => rfl
  | cons o options => rfl

theorem setOption_of_notMem {key : String} (h : key ∉ optionKeys ++ reservedKeys)
    (t : TargetSettings) (v : Json) : t.setOption key v = .ok t := by
  simp only [optionKeys, reservedKeys, replacementKey, List.cons_append, List.nil_append,
    List.mem_cons, List.not_mem_nil, or_false, not_or] at h
  simp [setOption, fixedKey?, replacementKey, h]

theorem ofJson_restrict {keys : List String} {v : Json}
    (h : ∀ options, v = .object options → ∀ o ∈ options, o.1 ∉ keys →
      o.1 ∉ optionKeys ++ reservedKeys) :
    ofJson (restrict keys v) = ofJson v := by
  cases v with
  | object options =>
    rw [restrict, ofJson_object, ofJson_object]
    apply foldlM_filter
    intro o ho hkey t
    exact setOption_of_notMem (h options rfl o ho (by simpa using hkey)) t o.2
  | _ => rfl

end TargetSettings

namespace Settings

theorem setOption_of_notMem {key : String} (h : key ∉ optionKeys ++ reservedKeys) (s : Settings)
    (v : Json) : s.setOption key v = .ok s := by
  simp only [optionKeys, reservedKeys, replacementKey, List.cons_append, List.nil_append,
    List.mem_cons, List.not_mem_nil, or_false, not_or] at h
  simp [setOption, fixedKey?, replacementKey, h]

/-- The entries that the settings of the targets stand for. -/
def targetEntries (targets : List (String × Json)) :
    Except Failure (List (String × TargetEntry)) :=
  targets.mapM fun e => do return (e.1, TargetEntry.settings (← TargetSettings.ofJson e.2))

theorem setOption_targets (s : Settings) (v : Json) : s.setOption "targets" v = do
    let entries ← targetEntries (← membersOrFail v)
    return { s with targets := .entries entries } :=
  rfl

theorem setOption_restrictTargets {targetKeys : List String} {v : Json}
    (h : ∀ targets, v = .object targets → ∀ e ∈ targets,
      TargetSettings.ofJson (TargetSettings.restrict targetKeys e.2) = TargetSettings.ofJson e.2)
    (s : Settings) :
    s.setOption "targets" (restrictTargets targetKeys v) = s.setOption "targets" v := by
  cases v with
  | object targets =>
    have hentries : targetEntries (targets.map fun e =>
        (e.1, TargetSettings.restrict targetKeys e.2)) = targetEntries targets := by
      rw [targetEntries, targetEntries, List.mapM_map]
      exact mapM_congr fun e he => by rw [Function.comp_apply, h targets rfl e he]
    rw [setOption_targets, setOption_targets, restrictTargets, membersOrFail, membersOrFail,
      ok_bind, ok_bind, hentries]
  | _ => rfl

theorem ofJson_object (d : List (String × Json)) :
    ofJson (.object d) = d.foldlM (fun s m => s.setOption m.1 m.2) {} :=
  rfl

/-- Keys that are neither options nor reserved can be left out of a configuration. -/
theorem ofJson_restrict {keys targetKeys : List String} {d : List (String × Json)}
    (hrun : ∀ m ∈ d, m.1 ∉ keys → m.1 ∉ optionKeys ++ reservedKeys)
    (htarget : ∀ targets name options, ("targets", .object targets) ∈ d →
      (name, .object options) ∈ targets → ∀ o ∈ options, o.1 ∉ targetKeys →
        o.1 ∉ TargetSettings.optionKeys ++ TargetSettings.reservedKeys) :
    ofJson (.object d) = ofJson (.object (restrict keys targetKeys d)) := by
  symm
  rw [ofJson_object, ofJson_object, restrict, List.foldlM_map]
  have hmember : ∀ m ∈ d, ∀ s : Settings, s.setOption (restrictMember targetKeys m).1
      (restrictMember targetKeys m).2 = s.setOption m.1 m.2 := by
    rintro ⟨key, v⟩ hm s
    unfold restrictMember
    split
    · next heq =>
      obtain rfl : key = "targets" := heq
      apply setOption_restrictTargets
      rintro targets rfl ⟨name, t⟩ he
      apply TargetSettings.ofJson_restrict
      rintro options rfl
      exact htarget targets name options hm he
    · rfl
  rw [foldlM_congr (g := fun s m => s.setOption m.1 m.2) fun m hm s =>
    hmember m (List.mem_of_mem_filter hm) s]
  apply foldlM_filter
  intro m hm hkey s
  exact setOption_of_notMem (hrun m hm (by simpa using hkey)) s m.2

/-- Without reserved keys a configuration is loaded as its options alone are. -/
theorem Avoids.ofJson_restrict {d : List (String × Json)}
    (h : Avoids reservedKeys TargetSettings.reservedKeys d) :
    ofJson (.object d) = ofJson (.object (restrict optionKeys TargetSettings.optionKeys d)) := by
  apply Settings.ofJson_restrict
  · intro m hm hkey
    rw [List.mem_append]
    exact not_or.2 ⟨hkey, h.run m hm⟩
  · intro targets name options htargets hname o ho hkey
    rw [List.mem_append]
    exact not_or.2 ⟨hkey, h.target targets name options htargets hname o ho⟩

end Settings

/-! ## Reserved keys -/

/-- What a step needs in order to leave things as they should be holds at every step. -/
theorem forall_of_foldlM {ε σ α : Type} {f : σ → α → Except ε σ} {P : σ → Prop} {Q : α → Prop}
    {xs : List α} {s s' : σ} (h : xs.foldlM f s = .ok s') (hs' : P s')
    (hstep : ∀ s x s', x ∈ xs → f s x = .ok s' → P s' → P s ∧ Q x) : P s ∧ ∀ x ∈ xs, Q x := by
  induction xs generalizing s with
  | nil => exact ⟨pure_eq_ok.1 h ▸ hs', by simp⟩
  | cons x xs ih =>
    rw [List.foldlM_cons] at h
    obtain ⟨next, hnext, h⟩ := bind_eq_ok.1 h
    obtain ⟨hP, hQ⟩ := ih h fun s y s' hy => hstep s y s' (List.mem_cons_of_mem x hy)
    obtain ⟨hPs, hQx⟩ := hstep s x next List.mem_cons_self hnext hP
    exact ⟨hPs, List.forall_mem_cons.2 ⟨hQx, hQ⟩⟩

namespace TargetSettings

variable {t : TargetSettings}

/-- What setting a key does to a target, unless it replaces all options. -/
theorem setOption_ok {t' : TargetSettings} {key : String} {v : Json}
    (h : t.setOption key v = .ok t') (hkey : key ≠ replacementKey) :
    key ∉ ["__class__", "__weakref__"] ∧ t'.canList = (t.canList && key != "to_dict") := by
  by_cases hmem : key ∈ optionKeys ++ reservedKeys
  · simp only [optionKeys, reservedKeys, List.cons_append, List.nil_append, List.mem_cons, hkey,
      List.not_mem_nil, or_false, false_or] at hmem
    rcases hmem with rfl | rfl | rfl | rfl | rfl | rfl
    all_goals cases h
    all_goals simp
  · rw [setOption_of_notMem hmem] at h
    cases h
    simp only [reservedKeys, List.mem_append, List.mem_cons, not_or] at hmem
    simp [hmem]

theorem notMem_reservedKeys {options : List (String × Json)} (h : ofJson (.object options) = .ok t)
    (hkeys : ∀ o ∈ options, o.1 ≠ replacementKey) (hlist : t.canList = true) :
    ∀ o ∈ options, o.1 ∉ reservedKeys := by
  rw [ofJson_object] at h
  refine (forall_of_foldlM (P := fun t => t.canList = true) h hlist ?_).2
  intro t o t' ho hset ht'
  obtain ⟨hfixed, hcanList⟩ := setOption_ok hset (hkeys o ho)
  rw [hcanList, Bool.and_eq_true, bne_iff_ne] at ht'
  simp only [List.mem_cons, List.not_mem_nil, or_false, not_or] at hfixed
  exact ⟨ht'.1, by simp [reservedKeys, hfixed, hkeys o ho, ht'.2]⟩

theorem canList_of_list {l : TargetListing} (h : t.list = .ok l) : t.canList = true := by
  cases hlist : t.canList with
  | true => rfl
  | false =>
    rw [list, hlist] at h
    cases h

end TargetSettings

namespace Settings

variable {s s' : Settings} {key : String} {v : Json} {d : List (String × Json)}

/-- What setting a key does, unless it replaces all options. -/
theorem setOption_ok (h : s.setOption key v = .ok s') (hkey : key ≠ replacementKey) :
    key ∉ ["__class__", "__weakref__"] ∧ s'.canList = (s.canList && key != "to_dict") ∧
      s'.canLookUp = (s.canLookUp && key != "target") ∧
      ((key ≠ "targets" ∧ s'.targets = s.targets) ∨ ∃ targets entries, key = "targets" ∧
        v = .object targets ∧ targetEntries targets = .ok entries ∧
          s'.targets = .entries entries) := by
  by_cases htargets : key = "targets"
  · subst htargets
    rw [setOption_targets] at h
    obtain ⟨targets, hmembers, h⟩ := bind_eq_ok.1 h
    obtain ⟨entries, hentries, h⟩ := bind_eq_ok.1 h
    cases h
    have hobject : v = .object targets := by
      cases v with
      | object members => exact congrArg Json.object (Except.ok.inj hmembers)
      | _ => cases hmembers
    exact ⟨by simp, by simp, by simp, .inr ⟨targets, entries, rfl, hobject, hentries, rfl⟩⟩
  by_cases hmem : key ∈ optionKeys ++ reservedKeys
  · simp only [optionKeys, reservedKeys, List.cons_append, List.nil_append, List.mem_cons, hkey,
      htargets, List.not_mem_nil, or_false, false_or] at hmem
    rcases hmem with rfl | rfl | rfl | rfl | rfl | rfl | rfl
    all_goals cases h
    all_goals simp
  · rw [setOption_of_notMem hmem] at h
    cases h
    simp only [reservedKeys, List.mem_append, List.mem_cons, not_or] at hmem
    simp [hmem, htargets]

/-- The targets of a configuration are its settings of the targets, each loaded. -/
theorem exists_entries_of_ofJson (h : ofJson (.object d) = .ok s)
    (hkeys : ∀ m ∈ d, m.1 ≠ replacementKey) (hnodup : (Json.keys d).Nodup)
    (hmem : ("targets", v) ∈ d) :
    ∃ targets entries, v = .object targets ∧ targetEntries targets = .ok entries ∧
      s.targets = .entries entries := by
  obtain ⟨front, back, rfl⟩ := List.append_of_mem hmem
  rw [ofJson_object, List.foldlM_append] at h
  obtain ⟨before, -, h⟩ := bind_eq_ok.1 h
  rw [List.foldlM_cons] at h
  obtain ⟨loaded, hloaded, hback⟩ := bind_eq_ok.1 h
  obtain ⟨-, -, -, ⟨hne, -⟩ | ⟨targets, entries, -, hobject, hentries, htargets⟩⟩ :=
    setOption_ok hloaded (by simp [replacementKey])
  · exact absurd rfl hne
  refine ⟨targets, entries, hobject, hentries, ?_⟩
  -- The key does not occur again, so the entries stay.
  refine foldlM_invariant (P := fun s : Settings => s.targets = .entries entries) hback htargets ?_
  intro s m s' hm hs hset
  obtain ⟨-, -, -, ⟨-, hsame⟩ | ⟨-, -, hkey, -⟩⟩ := setOption_ok hset (hkeys m (by simp [hm]))
  · rw [hsame, hs]
  · rw [Json.keys, List.map_append, List.nodup_append, List.map_cons, List.nodup_cons] at hnodup
    exact absurd (List.mem_map.2 ⟨m, hm, hkey⟩) hnodup.2.1.1

variable {l : SettingsListing}

theorem canList_of_list (h : s.list = .ok l) : s.canList = true := by
  cases hlist : s.canList with
  | true => rfl
  | false =>
    rw [list, hlist] at h
    cases h

theorem canLookUp_of_target {name : String} {r : TargetEntry × Settings}
    (h : s.target name = .ok r) : s.canLookUp = true := by
  cases hlookUp : s.canLookUp with
  | true => rfl
  | false =>
    rw [target, hlookUp] at h
    cases h

/-- Settings are listed together with every target. -/
theorem exists_list_of_list {entries : List (String × TargetEntry)} (h : s.list = .ok l)
    (hentries : s.targets = .entries entries) :
    ∀ e ∈ entries, ∃ listing, e.2.list = .ok listing := by
  rw [list, canList_of_list h, hentries] at h
  obtain ⟨list, hlist, h⟩ := bind_eq_ok.1 h
  obtain rfl := Except.ok.inj hlist
  obtain ⟨listings, hlistings, -⟩ := bind_eq_ok.1 h
  intro e he
  obtain ⟨listing, -, hlisting⟩ := exists_of_mem_left (mapM_eq_ok.1 hlistings) he
  obtain ⟨listing, hlisting, -⟩ := bind_eq_ok.1 hlisting
  exact ⟨listing, hlisting⟩

/-- The settings of a configuration can be listed and asked for targets only when it has no reserved
keys. -/
theorem avoids_of_works (h : ofJson (.object d) = .ok s) (hnodup : (Json.keys d).Nodup)
    (hkeys : Avoids [replacementKey] [replacementKey] d) (hlist : s.list = .ok l) {name : String}
    {r : TargetEntry × Settings} (htarget : s.target name = .ok r) :
    Avoids reservedKeys TargetSettings.reservedKeys d := by
  have hrun : ∀ m ∈ d, m.1 ≠ replacementKey := fun m hm => by simpa using hkeys.run m hm
  constructor
  · refine (forall_of_foldlM (P := fun s : Settings => s.canList = true ∧ s.canLookUp = true) h
      ⟨canList_of_list hlist, canLookUp_of_target htarget⟩ ?_).2
    intro s m s' hm hset hs'
    obtain ⟨hfixed, hcanList, hcanLookUp, -⟩ := setOption_ok hset (hrun m hm)
    rw [hcanList, hcanLookUp, Bool.and_eq_true, Bool.and_eq_true, bne_iff_ne, bne_iff_ne] at hs'
    simp only [List.mem_cons, List.not_mem_nil, or_false, not_or] at hfixed
    exact ⟨⟨hs'.1.1, hs'.2.1⟩,
      by simp [reservedKeys, hfixed, hrun m hm, hs'.1.2, hs'.2.2]⟩
  · intro targets name options htargets hname
    obtain ⟨targets', entries, htargets', hentries, hs⟩ :=
      exists_entries_of_ofJson h hrun hnodup htargets
    obtain rfl := Json.object.inj htargets'
    obtain ⟨e, he, hentry⟩ := exists_of_mem_left (mapM_eq_ok.1 hentries) hname
    obtain ⟨t, hload, heq⟩ := bind_eq_ok.1 hentry
    obtain ⟨listing, hlisting⟩ := exists_list_of_list hlist hs e he
    rw [← pure_eq_ok.1 heq] at hlisting
    refine TargetSettings.notMem_reservedKeys hload (fun o ho => ?_)
      (TargetSettings.canList_of_list hlisting)
    simpa using hkeys.target targets name options htargets hname o ho

/-- Options alone leave settings that can be asked for any target. -/
theorem exists_target_of_restrict
    (h : ofJson (.object (restrict optionKeys TargetSettings.optionKeys d)) = .ok s)
    (name : String) : ∃ r, s.target name = .ok r := by
  have hkeys : ∀ m ∈ restrict optionKeys TargetSettings.optionKeys d, m.1 ∈ optionKeys := by
    intro m hm
    obtain ⟨m', hm', rfl⟩ := List.mem_map.1 hm
    have hkey : m'.1 ∈ optionKeys := by simpa using (List.mem_filter.1 hm').2
    unfold restrictMember
    split
    · exact hkey
    · exact hkey
  obtain ⟨hlookUp, entries, hentries⟩ : s.canLookUp = true ∧ ∃ list, s.targets = .entries list := by
    refine foldlM_invariant (P := fun s : Settings =>
      s.canLookUp = true ∧ ∃ list, s.targets = .entries list) h ⟨rfl, [], rfl⟩ ?_
    intro s m s' hm hs hset
    have hkey : m.1 ≠ replacementKey ∧ m.1 ≠ "target" := by
      constructor
      all_goals
        intro heq
        exact absurd (heq ▸ hkeys m hm) (by simp [optionKeys, replacementKey])
    obtain ⟨-, -, hlookUp, htargets⟩ := setOption_ok hset hkey.1
    refine ⟨by simp [hlookUp, hs.1, hkey.2], ?_⟩
    rcases htargets with ⟨-, hsame⟩ | ⟨-, entries, -, -, -, hentries⟩
    · exact hsame ▸ hs.2
    · exact ⟨entries, hentries⟩
  rw [target, hlookUp, hentries, TargetTable.lookUp]
  cases entries.lookup name with
  | some e => exact ⟨_, rfl⟩
  | none => exact ⟨_, rfl⟩

/-- The key that replaces all options makes what stands in front of it irrelevant. -/
theorem ofJson_replaced {front back : List (String × Json)} (h : ofJson (.object front) = .ok s) :
    ofJson (.object (front ++ (replacementKey, v) :: back)) =
      ofJson (.object ((replacementKey, v) :: back)) := by
  rw [ofJson_object] at h
  rw [ofJson_object, ofJson_object, List.foldlM_append, h, ok_bind]
  rfl

/-- Which keys of a configuration have no effect.  Only options and reserved keys do have one.
Without reserved keys a configuration is loaded as its options alone are.  When it does not have the
key that replaces all options, and its options alone can be loaded and listed, then the settings are
as good as those of the options alone just when no key is reserved.  The key that replaces all
options takes the effect of everything in front of it. -/
theorem unknown_keys_idle (d : List (String × Json)) :
    ofJson (.object d) = ofJson (.object (restrict (optionKeys ++ reservedKeys)
      (TargetSettings.optionKeys ++ TargetSettings.reservedKeys) d)) ∧
    (Avoids reservedKeys TargetSettings.reservedKeys d →
      ofJson (.object d) = ofJson (.object (restrict optionKeys TargetSettings.optionKeys d))) ∧
    (Avoids [replacementKey] [replacementKey] d → (Json.keys d).Nodup → ∀ s l,
      ofJson (.object (restrict optionKeys TargetSettings.optionKeys d)) = .ok s →
      s.list = .ok l →
      (Alike (ofJson (.object d))
          (ofJson (.object (restrict optionKeys TargetSettings.optionKeys d))) ↔
        Avoids reservedKeys TargetSettings.reservedKeys d)) ∧
    ∀ front v back s, d = front ++ (replacementKey, v) :: back → ofJson (.object front) = .ok s →
      ofJson (.object d) = ofJson (.object ((replacementKey, v) :: back)) := by
  refine ⟨ofJson_restrict (fun m _ hkey => hkey) (fun _ _ _ _ _ o _ hkey => hkey),
    Avoids.ofJson_restrict, ?_, ?_⟩
  · intro hkeys hnodup s l hload hlist
    constructor
    · intro halike
      obtain ⟨r, htarget⟩ := exists_target_of_restrict hload ""
      have hlists := halike.list
      have htargets := halike.target ""
      rw [hload, ok_bind, hlist] at hlists
      rw [hload, ok_bind, htarget] at htargets
      obtain ⟨s', hs', hlists⟩ := bind_eq_ok.1 hlists
      rw [hs', ok_bind] at htargets
      exact avoids_of_works hs' hnodup hkeys hlists htargets
    · intro havoids
      rw [havoids.ofJson_restrict]
      exact Alike.refl _
  · rintro front v back s rfl hfront
    exact ofJson_replaced hfront

/-- A configuration with keys that are no options, among them the name of an operation that is not
looked up later. -/
def annotated : List (String × Json) :=
  [("comment", .string "by hand"), ("from_dict", .null), ("root_name", .string "Shape"),
    ("targets", .object [("go", .object [("out_dir", .string "o"), ("owner", .null)])])]

theorem avoids_annotated : Avoids reservedKeys TargetSettings.reservedKeys annotated := by
  constructor
  · simp [annotated, reservedKeys, replacementKey]
  · rintro targets name options htargets hname
    obtain rfl : targets = [("go", .object [("out_dir", .string "o"), ("owner", .null)])] := by
      simpa [annotated] using htargets
    obtain ⟨-, rfl⟩ : name = "go" ∧ options = [("out_dir", .string "o"), ("owner", .null)] := by
      simpa using hname
    simp [TargetSettings.reservedKeys, replacementKey]

theorem unknown_keys_idle_annotated :
    Avoids reservedKeys TargetSettings.reservedKeys annotated ∧
      restrict optionKeys TargetSettings.optionKeys annotated = [("root_name", .string "Shape"),
        ("targets", .object [("go", .object [("out_dir", .string "o")])])] ∧
      ofJson (.object annotated) = ofJson (.object [("root_name", .string "Shape"),
        ("targets", .object [("go", .object [("out_dir", .string "o")])])]) ∧
      restrict optionKeys TargetSettings.optionKeys [("target", .null)] = [] ∧
      ¬ Alike (ofJson (.object [("target", .null)])) (ofJson (.object [])) := by
  have hrestrict : restrict optionKeys TargetSettings.optionKeys annotated =
      [("root_name", .string "Shape"),
        ("targets", .object [("go", .object [("out_dir", .string "o")])])] := by
    simp [restrict, annotated, optionKeys, restrictMember, restrictTargets,
      TargetSettings.restrict, TargetSettings.optionKeys]
  have hempty : restrict optionKeys TargetSettings.optionKeys [("target", .null)] = [] := by
    simp [restrict, optionKeys]
  obtain ⟨-, hidle, -, -⟩ := unknown_keys_idle annotated
  obtain ⟨-, -, halike, -⟩ := unknown_keys_idle [("target", .null)]
  refine ⟨avoids_annotated, hrestrict, hrestrict ▸ hidle avoids_annotated, hempty, ?_⟩
  rw [hempty] at halike
  rw [halike ⟨by simp [replacementKey], by simp⟩ (by simp [Json.keys]) {} _ rfl rfl]
  intro havoids
  exact havoids.run _ List.mem_cons_self (by simp [reservedKeys])

/-- A key that is no option can make settings fail that work without it. -/
theorem unknown_key_not_idle :
    restrict optionKeys TargetSettings.optionKeys [("to_dict", .null)] = [] ∧
    (ofJson (.object [("to_dict", .null)]) >>= Settings.list).isOk = false ∧
    (ofJson (.object []) >>= Settings.list).isOk = true := by
  exact ⟨by simp [restrict, optionKeys], rfl, rfl⟩

end Settings

end Typegen
