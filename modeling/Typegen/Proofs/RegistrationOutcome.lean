import Typegen.Proofs.Registrations

/-!
# The outcome of a registration

A registration is accepted when it is to replace what is there, or when neither its name nor any of
its aliases is known (`register_ok_iff`).  One that is refused for its name changes nothing.  One that
is refused for an alias has stored the factory and the aliases in front of that alias, so it leaves
what an accepted registration with those aliases leaves (`register_refused`).  After an accepted
registration the name and the aliases stand for the new target, except for an alias that is the name
of another target: names are looked up first, so it goes on to stand for that one
(`resolveName_register`).
-/

namespace Typegen

/-- What a factory makes when it is registered under a name. -/
def Factory.build (key : String) (naming : Json) : Factory → Except Failure Engine
  | .backend b => do return { b with rules := ← b.rules.merged naming }.engine
  | .custom make => make naming
  | .other => .error (.report ⟨.notABackend key, { target := some key }⟩)

namespace Registry

open Text (lowercase)

/-- A name stands for a target, and what is created for it comes from a factory. -/
def Answers (r : Registry) (name key : String) (factory : Factory) : Prop :=
  r.resolveName name = .ok key ∧ ∀ naming, r.create name naming = factory.build key naming

/-- Two registries give the same answers to all questions. -/
structure Alike (r r' : Registry) : Prop where
  resolveName : ∀ name, r.resolveName name = r'.resolveName name
  create : ∀ name naming, r.create name naming = r'.create name naming
  names : r.names = r'.names
  isSupported : ∀ name, r.isSupported name = r'.isSupported name

variable {r after : Registry} {key name : String} {factory : Factory} {aliases : List String}
  {replace : Bool}

theorem Alike.refl (r : Registry) : r.Alike r := ⟨fun _ => rfl, fun _ _ => rfl, rfl, fun _ => rfl⟩

theorem create_eq_build (hname : r.resolveName name = .ok key)
    (hfactory : r.factories.lookup key = some factory) (naming : Json) :
    r.create name naming = factory.build key naming := by
  simp only [create, hname, bind, Except.bind, hfactory]
  cases factory <;> rfl

theorem isSupported_eq_false_iff : r.isSupported name = false ↔
    has r.factories (lowercase name) = false ∧ has r.aliases (lowercase name) = false := by
  simp [isSupported]

/-- Only the small letters of a name count. -/
theorem isSupported_congr {other : String} (h : lowercase other = lowercase name) :
    r.isSupported other = r.isSupported name := by
  simp only [isSupported, h]

/-! ## Aliases -/

/-- An alias that does not conflict can be set without a new conflict for any other. -/
theorem conflicts_set {aliasKey : String} (h : r.conflicts key aliasKey = false) (other : String) :
    { r with aliases := set aliasKey key r.aliases }.conflicts key other =
      r.conflicts key other := by
  by_cases hsame : other = aliasKey
  · rw [hsame, h]
    rw [conflicts, Bool.or_eq_false_iff] at h
    simp [conflicts, lookup_set, h.1]
  · simp only [conflicts, lookup_set, if_neg hsame]

/-- Whether an alias can be registered without replacing anything. -/
def Free (r : Registry) (key name : String) : Prop :=
  lowercase name = key ∨ r.conflicts key (lowercase name) = false

variable {a : String}

theorem registerAliases_cons_of_free (h : r.Free key a) :
    ∃ r' : Registry, (∀ b, r'.Free key b ↔ r.Free key b) ∧
      ∀ rest, r.registerAliases key false (a :: rest) = r'.registerAliases key false rest := by
  by_cases hself : lowercase a = key
  · exact ⟨r, fun _ => Iff.rfl, fun rest => by rw [registerAliases, if_pos hself]⟩
  · have hfree := h.resolve_left hself
    refine ⟨{ r with aliases := set (lowercase a) key r.aliases }, fun b => ?_, fun rest => ?_⟩
    · simp only [Free, conflicts_set hfree]
    · simp [registerAliases, hself, hfree]

theorem registerAliases_cons_of_not_free (h : ¬ r.Free key a) (rest : List String) :
    r.registerAliases key false (a :: rest) = (r, .error (.report ⟨.aliasConflict a, {}⟩)) := by
  rw [Free, not_or, Bool.not_eq_false] at h
  simp [registerAliases, h.1, h.2]

/-- Aliases are accepted when all are free, and otherwise refused at the first that is not. -/
theorem registerAliases_cases (r : Registry) (key : String) (aliases : List String) :
    ((∀ a ∈ aliases, r.Free key a) ∧ (r.registerAliases key false aliases).2 = .ok ()) ∨
      ∃ before refused after, aliases = before ++ refused :: after ∧
        (∀ a ∈ before, r.Free key a) ∧ ¬ r.Free key refused ∧
        r.registerAliases key false aliases =
          ((r.registerAliases key false before).1, .error (.report ⟨.aliasConflict refused, {}⟩)) := by
  induction aliases generalizing r with
  | nil => exact .inl ⟨by simp, rfl⟩
  | cons a aliases ih =>
    by_cases hfree : r.Free key a
    · obtain ⟨r', hsame, hnext⟩ := registerAliases_cons_of_free hfree
      rcases ih r' with ⟨hall, hok⟩ | ⟨before, refused, after, rfl, hbefore, hrefused, heq⟩
      · refine .inl ⟨List.forall_mem_cons.2 ⟨hfree, fun b hb => (hsame b).1 (hall b hb)⟩, ?_⟩
        rw [hnext]
        exact hok
      · refine .inr ⟨a :: before, refused, after, rfl, ?_, mt (hsame refused).2 hrefused, ?_⟩
        · exact List.forall_mem_cons.2 ⟨hfree, fun b hb => (hsame b).1 (hbefore b hb)⟩
        · rw [hnext, hnext, heq]
    · exact .inr ⟨[], a, aliases, rfl, by simp, hfree, registerAliases_cons_of_not_free hfree _⟩

theorem registerAliases_replace (r : Registry) (key : String) (aliases : List String) :
    (r.registerAliases key true aliases).2 = .ok () := by
  induction aliases generalizing r with
  | nil => rfl
  | cons a aliases ih =>
    rw [registerAliases]
    split
    · exact ih r
    · exact ih _

/-- Aliases that were accepted lead to the target, and others lead where they led before. -/
theorem lookup_of_registerAliases_ok (h : (r.registerAliases key replace aliases).2 = .ok ())
    (ha : a ≠ key) :
    (r.registerAliases key replace aliases).1.aliases.lookup a =
      if a ∈ aliases.map lowercase then some key else r.aliases.lookup a := by
  fun_induction registerAliases r key replace aliases with
  | case1 => simp
  | case2 r name rest aliasKey heq ih =>
    have hne : a ≠ lowercase name := fun hsame => ha (hsame.trans heq)
    rw [ih h, List.map_cons]
    simp only [List.mem_cons, hne, false_or]
  | case3 => cases h
  | case4 r name rest aliasKey hne hfree ih =>
    rw [ih h, List.map_cons, lookup_set]
    by_cases hmem : a ∈ rest.map lowercase
    · rw [if_pos hmem, if_pos (List.mem_cons_of_mem _ hmem)]
    · rw [if_neg hmem]
      by_cases hsame : a = lowercase name
      · rw [if_pos hsame, if_pos (hsame ▸ List.mem_cons_self)]
      · rw [if_neg hsame, if_neg (List.not_mem_cons_of_ne_of_not_mem hsame hmem)]

/-! ## Acceptance -/

/-- The registry in which the aliases of a new name are registered. -/
abbrev withFactory (r : Registry) (name : String) (factory : Factory) : Registry :=
  { r with factories := set (lowercase name) factory r.factories }

theorem register_of_isSupported (h : r.isSupported name = true) :
    r.register name factory aliases false = (r, .error (.report ⟨.alreadyRegistered name, {}⟩)) := by
  simp [register, h]

theorem register_eq (h : replace = true ∨ r.isSupported name = false) :
    r.register name factory aliases replace =
      (r.withFactory name factory).registerAliases (lowercase name) replace aliases := by
  rw [register, if_neg]
  rcases h with h | h <;> simp [h]

/-- For a new name an alias is free when it is not known. -/
theorem Sound.free_iff (hr : r.Sound) (hname : r.isSupported name = false) (a : String) :
    (r.withFactory name factory).Free (lowercase name) a ↔ r.isSupported a = false := by
  have hnew := (isSupported_eq_false_iff.1 hname).1
  unfold Free
  by_cases hself : lowercase a = lowercase name
  · simp only [hself, isSupported_congr hself, hname, true_or]
  have hfactories : has (set (lowercase name) factory r.factories) (lowercase a) =
      has r.factories (lowercase a) := by
    rw [Bool.eq_iff_iff, has_set, or_iff_right hself]
  rw [or_iff_right hself, isSupported_eq_false_iff, conflicts, Bool.or_eq_false_iff, hfactories]
  apply and_congr_right
  intro _
  cases hlookup : r.aliases.lookup (lowercase a) with
  | none => simp [has, hlookup]
  | some target =>
    -- What an alias leads to is registered, so it is not the new name.
    have hne : target ≠ lowercase name := by
      intro hsame
      have hleads := hr.leads _ (mem_of_lookup hlookup)
      rw [hsame, hnew] at hleads
      cases hleads
    simp [has, hlookup, hne]

/-- A registration is accepted when it is to replace what is there, or when all its names are new. -/
theorem Sound.register_ok_iff (hr : r.Sound) :
    (r.register name factory aliases replace).2 = .ok () ↔
      replace = true ∨ ∀ n ∈ name :: aliases, r.isSupported n = false := by
  cases replace with
  | true =>
    rw [register_eq (.inl rfl)]
    simp only [registerAliases_replace, true_or]
  | false =>
    simp only [Bool.false_eq_true, false_or, List.forall_mem_cons]
    cases hname : r.isSupported name with
    | true => simp [register_of_isSupported hname]
    | false =>
      rw [register_eq (.inr hname)]
      simp only [true_and, ← @Sound.free_iff r name factory hr hname]
      rcases registerAliases_cases (r.withFactory name factory) (lowercase name) aliases with
        ⟨hall, hok⟩ | ⟨before, refused, rest, rfl, -, hrefused, heq⟩
      · exact iff_of_true hok hall
      · rw [heq]
        refine iff_of_false (by simp) fun hall => hrefused (hall refused (by simp))

/-- A registration is refused for its name and changes nothing, or it is refused for an alias and
leaves what a registration with the aliases in front of that alias leaves. -/
theorem Sound.register_refused (hr : r.Sound) {f : Failure}
    (h : r.register name factory aliases replace = (after, .error f)) :
    (r.isSupported name = true ∧ f = .report ⟨.alreadyRegistered name, {}⟩ ∧ after = r) ∨
      (r.isSupported name = false ∧ ∃ before refused rest,
        aliases = before ++ refused :: rest ∧ r.isSupported refused = true ∧
        f = .report ⟨.aliasConflict refused, {}⟩ ∧
        r.register name factory before false = (after, .ok ())) := by
  obtain rfl : replace = false := by
    cases replace with
    | false => rfl
    | true =>
      have hok := @Sound.register_ok_iff r name factory aliases true hr
      rw [h] at hok
      cases hok.2 (.inl rfl)
  cases hname : r.isSupported name with
  | true =>
    rw [register_of_isSupported hname] at h
    cases h
    exact .inl ⟨rfl, rfl, rfl⟩
  | false =>
    rw [register_eq (.inr hname)] at h
    rcases registerAliases_cases (r.withFactory name factory) (lowercase name) aliases with
      ⟨-, hok⟩ | ⟨before, refused, rest, rfl, hbefore, hrefused, heq⟩
    · rw [h] at hok
      cases hok
    · rw [hr.free_iff hname, Bool.not_eq_false] at hrefused
      have hok : (r.register name factory before false).2 = .ok () := by
        refine hr.register_ok_iff.2 (.inr (List.forall_mem_cons.2 ⟨hname, fun a ha => ?_⟩))
        exact (hr.free_iff hname a).1 (hbefore a ha)
      rw [heq] at h
      cases h
      refine .inr ⟨rfl, before, refused, rest, rfl, hrefused, rfl, ?_⟩
      rw [register_eq (.inr hname)] at hok ⊢
      exact Prod.ext rfl hok

/-! ## Answers afterwards -/

section

variable {n spelled : String} (h : r.register name factory aliases replace = (after, .ok ()))
include h

/-- An accepted registration got as far as its aliases, and these were accepted. -/
theorem registerAliases_of_register_ok :
    (r.withFactory name factory).registerAliases (lowercase name) replace aliases =
      (after, .ok ()) := by
  rw [← register_eq, h]
  cases replace with
  | true => exact .inl rfl
  | false =>
    refine .inr ?_
    rw [← Bool.not_eq_true]
    intro hname
    rw [register_of_isSupported hname] at h
    cases h

theorem factories_register : after.factories = (r.withFactory name factory).factories := by
  have hsame := factories_registerAliases (r.withFactory name factory) (lowercase name) replace aliases
  rwa [registerAliases_of_register_ok h] at hsame

/-- What the names of an accepted registration stand for. -/
theorem resolveName_register (hn : n ∈ name :: aliases) (hspelled : lowercase spelled = lowercase n) :
    after.resolveName spelled =
      .ok (if lowercase n ∈ r.names then lowercase n else lowercase name) := by
  rw [resolveName_eq_ok, factories_register h, hspelled]
  by_cases hself : lowercase n = lowercase name
  · refine .inl ⟨has_set.2 (.inl hself), ?_⟩
    rw [hself, ite_self]
  by_cases hother : lowercase n ∈ r.names
  · rw [if_pos hother]
    exact .inl ⟨has_set.2 (.inr (mem_names.1 hother)), rfl⟩
  · refine .inr ⟨?_, ?_⟩
    · rw [Bool.eq_false_iff, ne_eq, has_set, ← mem_names]
      exact not_or.2 ⟨hself, hother⟩
    · have hmem : lowercase n ∈ aliases.map lowercase := by
        rcases List.mem_cons.1 hn with rfl | hn
        · exact absurd rfl hself
        · exact List.mem_map_of_mem hn
      have haliases := registerAliases_of_register_ok h
      have hlookup := lookup_of_registerAliases_ok (congrArg Prod.snd haliases) hself
      rw [haliases, if_pos hmem] at hlookup
      rw [if_neg hother, hlookup]

/-- A name that is new or registered again stands for the new target. -/
theorem answers_register (hn : n ∈ name :: aliases) (hspelled : lowercase spelled = lowercase n)
    (hown : lowercase n = lowercase name ∨ lowercase n ∉ r.names) :
    after.Answers spelled (lowercase name) factory := by
  have hresolve := resolveName_register h hn hspelled
  have hkey : (if lowercase n ∈ r.names then lowercase n else lowercase name) =
      lowercase name := by
    rcases hown with hown | hown
    · rw [hown, ite_self]
    · rw [if_neg hown]
  rw [hkey] at hresolve
  refine ⟨hresolve, create_eq_build hresolve ?_⟩
  rw [factories_register h, lookup_set, if_pos rfl]

/-- An alias that is the name of another target goes on to stand for that target. -/
theorem keeps_register (hn : n ∈ name :: aliases) (hspelled : lowercase spelled = lowercase n)
    (hne : lowercase n ≠ lowercase name) (hother : lowercase n ∈ r.names) :
    after.resolveName spelled = .ok (lowercase n) ∧
      ∀ naming, after.create spelled naming = r.create spelled naming := by
  have hresolve := resolveName_register h hn hspelled
  rw [if_pos hother] at hresolve
  refine ⟨hresolve, fun naming => ?_⟩
  have hbefore : r.resolveName spelled = .ok (lowercase n) := by
    rw [resolveName_eq_ok, hspelled]
    exact .inl ⟨mem_names.1 hother, rfl⟩
  simp only [create, hresolve, hbefore, bind, Except.bind, factories_register h, lookup_set,
    if_neg hne]

end

/-- What a registration does to a registry that came about by registrations.  It is accepted when it
is to replace what is there, or when all its names are new.  A refusal leaves all answers as they were
just when the name itself was known; otherwise the target stays registered with the aliases in front
of the refused one.  After an accepted registration its names, in any spelling, stand for the new
target, apart from aliases that are names of other targets, which stand for those. -/
theorem outcome_of_register {r : Registry} (h : r.Reached) (name : String) (factory : Factory)
    (aliases : List String) (replace : Bool) :
    ∃ after result, r.register name factory aliases replace = (after, result) ∧
      (result = .ok () ↔ replace = true ∨ ∀ n ∈ name :: aliases, r.isSupported n = false) ∧
      (∀ f, result = .error f →
        (∃ report, f = .report report ∧ report.cause.kind = .registry) ∧
        (after.Alike r ↔ r.isSupported name = true) ∧
        (r.isSupported name = false → ∃ before refused rest,
          aliases = before ++ refused :: rest ∧ r.isSupported refused = true ∧
            r.register name factory before false = (after, .ok ()))) ∧
      (result = .ok () → ∀ n ∈ name :: aliases, ∀ spelled, lowercase spelled = lowercase n →
        (lowercase n = lowercase name ∨ lowercase n ∉ r.names →
          after.Answers spelled (lowercase name) factory) ∧
        (lowercase n ≠ lowercase name → lowercase n ∈ r.names →
          after.resolveName spelled = .ok (lowercase n) ∧
            ∀ naming, after.create spelled naming = r.create spelled naming)) := by
  have hsound := h.sound
  have hiff := @Sound.register_ok_iff r name factory aliases replace hsound
  rcases hcall : r.register name factory aliases replace with ⟨after, result⟩
  rw [hcall] at hiff
  refine ⟨after, result, rfl, hiff, ?_, ?_⟩
  · rintro f rfl
    rcases hsound.register_refused hcall with
      ⟨hname, rfl, rfl⟩ | ⟨hname, before, refused, rest, rfl, hrefused, rfl, heq⟩
    · refine ⟨⟨_, rfl, rfl⟩, iff_of_true (.refl _) hname, fun hnew => ?_⟩
      rw [hname] at hnew
      cases hnew
    · refine ⟨⟨_, rfl, rfl⟩, iff_of_false (fun halike => ?_) (by simp [hname]), fun _ =>
        ⟨before, refused, rest, rfl, hrefused, heq⟩⟩
      -- The name is known afterwards, and was not before.
      have hresolve := (answers_register heq List.mem_cons_self rfl (.inl rfl)).1
      rw [halike.resolveName] at hresolve
      have hknown := exists_resolveName_iff.1 ⟨_, hresolve⟩
      rw [hname] at hknown
      cases hknown
  · rintro rfl n hn spelled hspelled
    exact ⟨answers_register hcall hn hspelled, keeps_register hcall hn hspelled⟩

/-- A registry with one target and one alias. -/
def golang : Registry :=
  (({} : Registry).register "Go" (.backend Target.go.backend) ["golang"] false).1

theorem reached_golang : golang.Reached := .register .empty ..

theorem outcome_of_register_golang :
    golang.Reached ∧ golang.isSupported "GOLANG" = true ∧ golang.isSupported "java" = false ∧
      (∃ after f, golang.register "java" .other ["jvm", "GOLANG", "j"] false = (after, .error f) ∧
        ¬ after.Alike golang) ∧
      ∃ after, golang.register "Java" (.backend Target.java.backend) ["jvm", "Go"] true =
          (after, .ok ()) ∧
        after.Answers "JVM" "java" (.backend Target.java.backend) ∧
        after.resolveName "gO" = .ok "go" := by
  have hknown : golang.isSupported "GOLANG" = true := by decide
  have hnew : golang.isSupported "java" = false := by decide
  have hjava : lowercase "Java" = "java" := by decide
  obtain ⟨after, result, hcall, hok, hrefused, -⟩ :=
    outcome_of_register reached_golang "java" .other ["jvm", "GOLANG", "j"] false
  obtain ⟨after', result', hcall', haccepted, -, hanswers⟩ := outcome_of_register reached_golang
    "Java" (.backend Target.java.backend) ["jvm", "Go"] true
  refine ⟨reached_golang, hknown, hnew, ?_, after', haccepted.2 (.inl rfl) ▸ hcall', ?_, ?_⟩
  · cases result with
    | ok =>
      have hall := (hok.1 rfl).resolve_left (by simp) "GOLANG" (by simp)
      rw [hknown] at hall
      cases hall
    | error f =>
      refine ⟨after, f, hcall, fun halike => ?_⟩
      rw [(hrefused f rfl).2.1, hnew] at halike
      cases halike
  · have hjvm := (hanswers (haccepted.2 (.inl rfl)) "jvm" (by simp) "JVM" (by decide)).1
      (.inr (by rw [mem_names]; decide))
    rwa [hjava] at hjvm
  · exact ((hanswers (haccepted.2 (.inl rfl)) "Go" (by simp) "gO" (by decide)).2 (by decide)
      (mem_names.2 (by decide))).1

/-- A registration that is refused for an alias leaves its name behind, and one that is accepted can
have an alias that stands for another target. -/
theorem register_not_allOrNothing :
    ((golang.register "java" .other ["golang"] false).2.isOk = false ∧
      golang.isSupported "java" = false ∧
      (golang.register "java" .other ["golang"] false).1.isSupported "java" = true) ∧
    ((golang.register "java" .other ["go"] true).2.isOk = true ∧
      ((golang.register "java" .other ["go"] true).1.resolveName "go").toOption = some "go") := by
  refine ⟨⟨?_, ?_, ?_⟩, ?_, ?_⟩
  all_goals decide

end Registry

end Typegen
