import Typegen.Proofs.Keys
import Typegen.Proofs.SmallLetters
import Typegen.Registry

/-!
# Registries over time

What holds of a registry after any calls to register targets, be they accepted, refused halfway or
replacing what was there.  Names and aliases are kept in two tables that replacing can make overlap,
and a refused call leaves behind what it did before it was refused.  Two facts survive every call
(`Sound`): aliases lead to names that are registered, and names are in small letters.
-/

namespace Typegen.Registry

/-- A registry that comes about from an empty one by calls to register targets. -/
inductive Reached : Registry → Prop
  | empty : Reached {}
  | register {r : Registry} (hr : Reached r) (name : String) (factory : Factory)
      (aliases : List String) (replace : Bool) :
      Reached (r.register name factory aliases replace).1

/-- Aliases lead to registered names, and names are in small letters. -/
structure Sound (r : Registry) : Prop where
  leads : ∀ e ∈ r.aliases, has r.factories e.2 = true
  small : ∀ e ∈ r.factories, Text.lowercase e.1 = e.1

/-! ## Tables -/

section Tables

variable {α : Type} {table : List (String × α)} {key other : String} {v : α}

theorem has_iff : has table key = true ↔ ∃ v, table.lookup key = some v := by
  rw [has, Option.isSome_iff_exists]

theorem has_iff_mem : has table key = true ↔ key ∈ table.map Prod.fst := by
  rw [has_iff]
  constructor
  · rintro ⟨v, hv⟩
    exact List.mem_map_of_mem (f := Prod.fst) (mem_of_lookup hv)
  · exact exists_lookup_of_mem_keys

theorem lookup_set : (set key v table).lookup other = if other = key then some v
    else table.lookup other := by
  rw [set, lookup_setMember]

theorem has_set : has (set key v table) other = true ↔ other = key ∨ has table other = true := by
  rw [has_iff, has_iff, lookup_set]
  by_cases h : other = key
  · simp [h]
  · simp [h]

theorem mem_names {r : Registry} : key ∈ r.names ↔ has r.factories key = true := by
  rw [names, List.mem_mergeSort, has_iff_mem]

end Tables

/-! ## One call -/

variable {r : Registry} {key name : String} {factory : Factory} {aliases : List String}
  {replace : Bool}

@[simp] theorem factories_registerAliases (r : Registry) (key : String) (replace : Bool)
    (aliases : List String) :
    (r.registerAliases key replace aliases).1.factories = r.factories := by
  fun_induction registerAliases r key replace aliases with
  | case1 => rfl
  | case2 r name rest aliasKey heq ih => exact ih
  | case3 => rfl
  | case4 r name rest aliasKey hne hfree ih => exact ih

/-- An alias was there before, or it leads to the target that is registered. -/
theorem mem_registerAliases {e : String × String}
    (h : e ∈ (r.registerAliases key replace aliases).1.aliases) : e ∈ r.aliases ∨ e.2 = key := by
  fun_induction registerAliases r key replace aliases with
  | case1 => exact .inl h
  | case2 r name rest aliasKey heq ih => exact ih h
  | case3 => exact .inl h
  | case4 r name rest aliasKey hne hfree ih =>
    rcases ih h with h | h
    · rcases mem_setMember h with rfl | h
      · exact .inr rfl
      · exact .inl h
    · exact .inr h

/-- Without replacing, an alias keeps its target. -/
theorem lookup_registerAliases {a target : String} (h : r.aliases.lookup a = some target) :
    (r.registerAliases key false aliases).1.aliases.lookup a = some target := by
  generalize hreplace : false = replace
  fun_induction registerAliases r key replace aliases with
  | case1 => exact h
  | case2 r name rest aliasKey heq ih => exact ih h
  | case3 => exact h
  | case4 r name rest aliasKey hne hfree ih =>
    refine ih ?_
    show (set aliasKey key r.aliases).lookup a = some target
    rw [lookup_set]
    by_cases ha : a = aliasKey
    · -- The alias is known already, so it must have led to the same target.
      have hkeeps : ¬(r.conflicts key aliasKey = true) := by
        rw [← hreplace] at hfree
        simpa using hfree
      simp only [conflicts, ← ha, h, Option.getD_some, Bool.or_eq_true, bne_iff_ne, not_or,
        not_not] at hkeeps
      rw [if_pos ha, hkeeps.2]
    · rw [if_neg ha, h]

/-- A call changes nothing, or it registers the name and then some aliases. -/
theorem register_cases (r : Registry) (name : String) (factory : Factory) (aliases : List String)
    (replace : Bool) :
    (replace = false ∧ r.isSupported name = true ∧
        (r.register name factory aliases replace).1 = r) ∨
      ((replace = true ∨ r.isSupported name = false) ∧
        (r.register name factory aliases replace).1 =
          (registerAliases { r with factories := set (Text.lowercase name) factory r.factories }
            (Text.lowercase name) replace aliases).1) := by
  unfold register
  by_cases hrefused : (!replace && r.isSupported name) = true
  · rw [if_pos hrefused]
    simp only [Bool.and_eq_true, Bool.not_eq_true'] at hrefused
    exact .inl ⟨hrefused.1, hrefused.2, rfl⟩
  · rw [if_neg hrefused]
    refine .inr ⟨?_, rfl⟩
    cases replace with
    | true => exact .inl rfl
    | false => exact .inr (by simpa using hrefused)

theorem Sound.register (h : r.Sound) (name : String) (factory : Factory) (aliases : List String)
    (replace : Bool) : (r.register name factory aliases replace).1.Sound := by
  rcases register_cases r name factory aliases replace with ⟨-, -, heq⟩ | ⟨-, heq⟩
  · rw [heq]
    exact h
  · rw [heq]
    constructor
    · intro e he
      rw [factories_registerAliases, has_set]
      rcases mem_registerAliases he with he | he
      · exact .inr (h.leads e he)
      · exact .inl he
    · intro e he
      rw [factories_registerAliases] at he
      rcases mem_setMember he with rfl | he
      · exact Text.lowercase_lowercase name
      · exact h.small e he

theorem Reached.sound (h : r.Reached) : r.Sound := by
  induction h with
  | empty => exact ⟨by simp, by simp⟩
  | register _ name factory aliases replace ih => exact ih.register name factory aliases replace

/-! ## Names -/

theorem resolveName_eq_ok : r.resolveName name = .ok key ↔
    (has r.factories (Text.lowercase name) = true ∧ key = Text.lowercase name) ∨
      (has r.factories (Text.lowercase name) = false ∧
        r.aliases.lookup (Text.lowercase name) = some key) := by
  unfold resolveName
  by_cases hname : has r.factories (Text.lowercase name) = true
  · simp [hname, eq_comm]
  · rw [if_neg hname, Bool.not_eq_true] at *
    cases halias : r.aliases.lookup (Text.lowercase name) with
    | some target => simp [hname]
    | none => simp [hname]

theorem exists_resolveName_iff :
    (∃ key, r.resolveName name = .ok key) ↔ r.isSupported name = true := by
  simp only [resolveName_eq_ok, isSupported, Bool.or_eq_true]
  by_cases hname : has r.factories (Text.lowercase name) = true
  · simp [hname]
  · simp [hname, @has_iff _ r.aliases]

theorem Sound.has_of_resolveName (h : r.Sound) (hname : r.resolveName name = .ok key) :
    has r.factories key = true := by
  rcases resolveName_eq_ok.1 hname with ⟨hhas, rfl⟩ | ⟨-, halias⟩
  · exact hhas
  · exact h.leads _ (mem_of_lookup halias)

/-- A registered name stands for itself. -/
theorem Sound.resolveName_self (h : r.Sound) (hkey : has r.factories key = true) :
    r.resolveName key = .ok key := by
  obtain ⟨factory, hfactory⟩ := has_iff.1 hkey
  have hsmall : Text.lowercase key = key := h.small (key, factory) (mem_of_lookup hfactory)
  rw [resolveName_eq_ok, hsmall]
  exact .inl ⟨hkey, rfl⟩

/-- Without replacing, a known name goes on to stand for the same target, and the target for the
same factory. -/
theorem Sound.keeps_of_register (h : r.Sound) (name : String) (factory : Factory)
    (aliases : List String) {known : String} (hknown : r.resolveName known = .ok key) :
    (r.register name factory aliases false).1.resolveName known = .ok key ∧
      (r.register name factory aliases false).1.factories.lookup key = r.factories.lookup key := by
  rcases register_cases r name factory aliases false with ⟨-, -, heq⟩ | ⟨hfree, heq⟩
  · rw [heq]
    exact ⟨hknown, rfl⟩
  have hfree : r.isSupported name = false := hfree.resolve_left (by simp)
  simp only [isSupported, Bool.or_eq_false_iff] at hfree
  -- The name that is registered is neither the key nor what leads to it.
  have hne : key ≠ Text.lowercase name := by
    rintro rfl
    rw [h.has_of_resolveName hknown] at hfree
    cases hfree.1
  rw [heq, factories_registerAliases, lookup_set, if_neg hne]
  refine ⟨?_, rfl⟩
  rw [resolveName_eq_ok, factories_registerAliases, has_set]
  rcases resolveName_eq_ok.1 hknown with ⟨hhas, hkey⟩ | ⟨hnone, halias⟩
  · exact .inl ⟨.inr hhas, hkey⟩
  · refine .inr ⟨?_, lookup_registerAliases halias⟩
    rw [Bool.eq_false_iff, ne_eq, has_set, not_or]
    constructor
    · intro hsame
      rw [← hsame, has_iff.2 ⟨key, halias⟩] at hfree
      cases hfree.2
    · simp [hnone]

/-- What holds of a registry after any calls.  Every alias leads to something that is registered.
Exactly the known names can be resolved, each to a name in the list that stands for itself.  A call
that is not to replace anything leaves every known name with its target and its factory, also when
it is refused. -/
theorem consistent_of_reached {r : Registry} (h : r.Reached) :
    (∀ e ∈ r.aliases, ∃ factory, r.factories.lookup e.2 = some factory) ∧
    (∀ name, (∃ key, r.resolveName name = .ok key) ↔ r.isSupported name = true) ∧
    (∀ name key, r.resolveName name = .ok key → key ∈ r.names ∧ r.resolveName key = .ok key) ∧
    ∀ name factory aliases known, r.isSupported known = true →
      ∃ key, r.resolveName known = .ok key ∧
        (r.register name factory aliases false).1.resolveName known = .ok key ∧
        (r.register name factory aliases false).1.factories.lookup key =
          r.factories.lookup key ∧
        ∀ naming, (r.register name factory aliases false).1.create known naming =
          r.create known naming := by
  have hsound := h.sound
  refine ⟨fun e he => has_iff.1 (hsound.leads e he), fun name => exists_resolveName_iff, ?_, ?_⟩
  · intro name key hname
    have hhas := hsound.has_of_resolveName hname
    exact ⟨mem_names.2 hhas, hsound.resolveName_self hhas⟩
  · intro name factory aliases known hknown
    obtain ⟨key, hkey⟩ := exists_resolveName_iff.2 hknown
    obtain ⟨hresolve, hlookup⟩ := hsound.keeps_of_register name factory aliases hkey
    refine ⟨key, hkey, hresolve, hlookup, fun naming => ?_⟩
    simp only [create, hkey, hresolve, bind, Except.bind, hlookup]

/-- A registry in which a name is also an alias, and a call was refused at its second alias. -/
def overlapping : Registry :=
  ((((({} : Registry).register "Go" .other ["golang"] false).1.register
    "golang" .other [] true).1).register "java" .other ["jvm", "GO", "j"] false).1

theorem consistent_overlapping :
    overlapping.Reached ∧ overlapping.aliases = [("golang", "go"), ("jvm", "java")] ∧
      overlapping.isSupported "GoLang" = true ∧ overlapping.isSupported "j" = false ∧
      ∃ key, overlapping.resolveName "GoLang" = .ok key ∧ key ∈ overlapping.names ∧
        (overlapping.register "kotlin" .other ["jvm"] false).1.resolveName "GoLang" = .ok key := by
  have hreached : overlapping.Reached := by
    apply Reached.register
    apply Reached.register
    apply Reached.register
    exact .empty
  have hknown : overlapping.isSupported "GoLang" = true := by decide
  obtain ⟨-, -, hnames, hkeeps⟩ := consistent_of_reached hreached
  obtain ⟨key, hkey, hafter, -⟩ := hkeeps "kotlin" .other ["jvm"] "GoLang" hknown
  exact ⟨hreached, by decide, hknown, by decide +kernel, key, hkey,
    (hnames _ _ hkey).1, hafter⟩

end Typegen.Registry
