import Typegen.Proofs.LegalNames

/-!
# Names that are asked for

The types of a schema are named one after the other: each definition, the types nested in it and at
last the root.  `askedNames` lists the words of these names in that order, and `Rules.Asks` is a run of
claims for them.  A name that is neither reserved nor a numbered or escaped form of another is the name
of a type just when one of the places asks for it (`Table.mem_typeNames_iff`).
-/

namespace Typegen.Naming

open Schema (Node)

/-! ## One claim -/

/-- A name that does not arise from another by a suffix or a number. -/
structure Unmarked (suffix name : String) : Prop where
  suffix : ∀ base, name ≠ base ++ suffix
  number : ∀ base n, name ≠ base ++ numberText n

/-- What ends with neither a digit nor an underscore is such a name. -/
theorem unmarked_of_getLast? {name : String} {c : Char} (h : name.toList.getLast? = some c)
    (hunderscore : c ≠ '_') (hdigit : Text.isDigit c = false) : Unmarked "_" name where
  suffix base := by
    rintro rfl
    rw [String.toList_append, List.getLast?_append_of_ne_nil _ (by simp)] at h
    exact hunderscore (Option.some.inj h).symm
  number base n := by
    rintro rfl
    have hne : (numberText n).toList ≠ [] := by
      rw [numberText, String.toList_ofList]
      exact Nat.toDigits_ne_nil
    rw [String.toList_append, List.getLast?_append_of_ne_nil _ hne] at h
    rw [isDigit_of_mem_numberText (List.mem_of_getLast? h)] at hdigit
    cases hdigit

variable {suffix id : String} {nodes : List (Pointer × Names)}

theorem Namespace.base_none {ns : Namespace} (hsuffix : ns.escapeSuffix = .string suffix)
    (raw : String) :
    ns.base none raw = .ok (if ns.reserved.contains raw then raw ++ suffix else raw) := by
  rw [base, hsuffix, truncate]
  split <;> rfl

/-- A name without a limit is handed out as it is, or with the suffix, when that is free. -/
theorem Namespace.eq_of_claim {ns ns' : Namespace} (hlimit : ns.maxLength = .null)
    (hsuffix : ns.escapeSuffix = .string suffix) {raw : String} {path : Option String}
    (h : ns.claim raw path = .ok (id, ns'))
    (hfree : ns.isFree (if ns.reserved.contains raw then raw ++ suffix else raw) = true) :
    id = if ns.reserved.contains raw then raw ++ suffix else raw := by
  simp only [claim, hlimit, lengthLimit, ok_bind, base_none hsuffix, hfree, if_true, pure_eq_ok,
    Prod.mk.injEq] at h
  exact h.1.symm

/-- Such a name is handed out to the first that asks for it. -/
theorem Namespace.claim_eq_iff {ns ns' : Namespace} (hlimit : ns.maxLength = .null)
    (hsuffix : ns.escapeSuffix = .string suffix) {raw x : String} {path : Option String}
    (h : ns.claim raw path = .ok (id, ns')) (hx : Unmarked suffix x) (hreserved : x ∉ ns.reserved) :
    id = x ↔ raw = x ∧ x ∉ ns.taken := by
  constructor
  · rintro rfl
    refine ⟨?_, (isFree_iff.1 (claim_spec h).1).1⟩
    obtain ⟨limit, base, hnone, hfound, hid⟩ := exists_base_of_claim h
    rw [hlimit] at hnone
    obtain rfl : none = limit := Except.ok.inj hnone
    obtain rfl := Except.ok.inj ((base_none hsuffix raw).symm.trans hfound)
    rcases hid with hid | ⟨k, hk⟩
    · split at hid
      · exact absurd hid (hx.suffix raw)
      · exact hid.symm
    · exact absurd (Option.some.inj hk).symm (hx.number _ k)
  · rintro ⟨rfl, htaken⟩
    have hraw : (if ns.reserved.contains raw then raw ++ suffix else raw) = raw :=
      if_neg (by simpa using hreserved)
    have heq := eq_of_claim hlimit hsuffix h (by
      rw [hraw]
      exact isFree_iff.2 ⟨htaken, hreserved⟩)
    rwa [hraw] at heq

/-! ## Runs of claims -/

/-- The types with the given words are named one after the other. -/
inductive Rules.Asks (r : Rules) : Namespace → List (List String) → List String → Namespace → Prop
  | nil (ns : Namespace) : Asks r ns [] [] ns
  | cons {ns ns' ns'' : Namespace} {segments : List String} {asked : List (List String)}
      {raw id : String} {path : Option String} {ids : List String}
      (hraw : r.typeIdentifier segments = .ok raw) (hclaim : ns.claim raw path = .ok (id, ns'))
      (hrest : Asks r ns' asked ids ns'') : Asks r ns (segments :: asked) (id :: ids) ns''

variable {r : Rules} {ns ns' ns'' types left : Namespace} {asked more : List (List String)}
  {ids others : List String}

theorem Rules.Asks.append (h : r.Asks ns asked ids ns') (h' : r.Asks ns' more others ns'') :
    r.Asks ns (asked ++ more) (ids ++ others) ns'' := by
  induction h with
  | nil => exact h'
  | cons hraw hclaim _ ih => exact .cons hraw hclaim (ih h')

theorem Rules.Asks.mem_iff (h : r.Asks ns asked ids ns') (hlimit : ns.maxLength = .null)
    (hsuffix : ns.escapeSuffix = .string suffix) {x : String} (hx : Unmarked suffix x)
    (hreserved : x ∉ ns.reserved) :
    x ∈ ids ↔ x ∉ ns.taken ∧ ∃ segments ∈ asked, r.typeIdentifier segments = .ok x := by
  induction h with
  | nil => simp
  | @cons ns ns' ns'' segments asked raw id path ids hraw hclaim _ ih =>
    have hstep := Namespace.claim_eq_iff hlimit hsuffix hclaim hx hreserved
    obtain ⟨-, rfl, -⟩ := Namespace.claim_spec hclaim
    rw [List.mem_cons, ih hlimit hsuffix hreserved, List.exists_mem_cons_iff, hraw,
      Except.ok.injEq, List.mem_cons, not_or, eq_comm (a := x)]
    by_cases hid : id = x
    · simp [hid, hstep.1 hid]
    · have hne : ¬ (raw = x ∧ x ∉ ns.taken) := fun h => hid (hstep.2 h)
      grind

/-! ## The types of a schema -/

/-- The places below the top of a body that declare types. -/
def nestedSites (name : String) (body : Node) : List Site :=
  (sites (Site.children { node := body, segments := [name] })).filter (·.node.isNamed)

/-- The words of the names of types, in the order in which they are named. -/
def askedNames (bodies : List (String × Node)) : List (List String) :=
  bodies.flatMap fun e => [e.1] :: (nestedSites e.1 e.2).map Site.segments

theorem asks_of_nameSite (hqualify : r.qualifyMembers.isTruthy = false) {s : Site}
    (hgiven : s.given = none) {result : Option Names}
    (h : nameSite r types s = .ok (result, left)) :
    r.Asks types (([s].filter (·.node.isNamed)).map Site.segments) (result.toList.map Names.type)
      left := by
  cases namesSite_of_nameSite h with
  | unnamed hnode => simpa [hnode] using .nil _
  | given _ _ hsome => rw [hgiven] at hsome; cases hsome
  | @claimed names left hnode _ _ hhands =>
    have htype : ∃ types', nameType r types s = .ok (names.type, types') := by
      cases namedBy_of_nameSite h with
      | qualified htype | enum htype | struct htype | union htype => exact ⟨_, htype⟩
    obtain ⟨types', htype⟩ := htype
    rw [nameType, hgiven] at htype
    obtain ⟨raw, hraw, hclaim⟩ := bind_eq_ok.1 htype
    have hleft : left = types' := by
      rw [Rules.memberIds, hqualify] at hhands
      cases hhands with
      | cons hfirst hrest =>
        cases hrest
        rw [(Namespace.claim_spec hfirst).2.1, (Namespace.claim_spec hclaim).2.1]
    simpa [hnode, hleft] using Rules.Asks.cons hraw hclaim (.nil _)

theorem asks_of_nameSites (hqualify : r.qualifyMembers.isTruthy = false) {ss : List Site}
    (hgiven : ∀ s ∈ ss, s.given = none) (h : nameSites r types ss = .ok (nodes, left)) :
    r.Asks types ((ss.filter (·.node.isNamed)).map Site.segments)
      (nodes.map fun e => e.2.type) left := by
  induction ss generalizing types nodes with
  | nil =>
    rw [nameSites, Except.ok.injEq, Prod.mk.injEq] at h
    obtain ⟨rfl, rfl⟩ := h
    exact .nil _
  | cons s rest ih =>
    simp only [nameSites, bind_eq_ok, pure_eq_ok, Prod.mk.injEq] at h
    obtain ⟨⟨result, types'⟩, hsite, ⟨others, left'⟩, hothers, rfl, rfl⟩ := h
    rw [List.forall_mem_cons] at hgiven
    have hboth := (asks_of_nameSite hqualify hgiven.1 hsite).append (ih hgiven.2 hothers)
    rw [← List.map_append, ← List.filter_append, List.singleton_append] at hboth
    cases result <;> simpa using hboth

/-- The identifier of a body is asked for first, and those of the types nested in it behind it. -/
theorem asks_of_nameBody (hqualify : r.qualifyMembers.isTruthy = false) {name : String}
    {body : Node} (h : nameBody r types name body = .ok (id, nodes, left)) :
    ∃ nested, r.Asks types ([name] :: (nestedSites name body).map Site.segments) (id :: nested) left ∧
      ∀ x, x ∈ id :: nested ↔ x = id ∨ x ∈ nodes.map fun e => e.2.type := by
  simp only [nameBody, bind_eq_ok, pure_eq_ok, Prod.mk.injEq] at h
  obtain ⟨raw, hraw, ⟨id', types'⟩, hclaim, ⟨nodes', left'⟩, hnodes, rfl, rfl, rfl⟩ := h
  rw [sites, List.append_nil] at hnodes
  simp only [nameSites, bind_eq_ok, pure_eq_ok, Prod.mk.injEq] at hnodes
  obtain ⟨⟨own, types''⟩, hsite, ⟨nested, left'⟩, hnested, rfl, rfl⟩ := hnodes
  have hasks := asks_of_nameSites hqualify
    (given_of_mem_sites fun c hc => given_of_mem_children hc) hnested
  have hown : types'' = types' ∧ ∀ names ∈ own, names.type = id' := by
    cases namesSite_of_nameSite hsite with
    | unnamed => simp
    | given _ _ hgiven hhands =>
      rw [Rules.memberIds, hqualify] at hhands
      cases hhands
      simpa using (Option.some.inj hgiven).symm
    | claimed _ _ hgiven => cases hgiven
  rw [hown.1] at hasks
  refine ⟨_, .cons hraw hclaim hasks, fun x => ?_⟩
  cases own with
  | none => simp
  | some names => simp [hown.2 names rfl]

theorem asks_of_nameDefinitions (hqualify : r.qualifyMembers.isTruthy = false)
    {bodies : List (String × Node)} {ids : List (String × String)}
    (h : nameDefinitions r types bodies = .ok (ids, nodes, left)) :
    ∃ all, r.Asks types (askedNames bodies) all left ∧
      ∀ x, x ∈ all ↔ x ∈ ids.map Prod.snd ∨ x ∈ nodes.map fun e => e.2.type := by
  induction bodies generalizing types ids nodes with
  | nil =>
    rw [nameDefinitions, Except.ok.injEq, Prod.mk.injEq, Prod.mk.injEq] at h
    obtain ⟨rfl, rfl, rfl⟩ := h
    exact ⟨[], .nil _, by simp⟩
  | cons e bodies ih =>
    obtain ⟨id, own, types', ids', others, hbody, hrest, rfl, rfl⟩ := nameDefinitions_cons h
    obtain ⟨nested, hasks, hmem⟩ := asks_of_nameBody hqualify hbody
    obtain ⟨all, hall, hothers⟩ := ih hrest
    refine ⟨_, hasks.append hall, fun x => ?_⟩
    rw [List.mem_append, hmem, hothers, List.map_cons, List.mem_cons, List.map_append,
      List.mem_append]
    grind

/-- A name that is no other's numbered or escaped form is that of a type just when some place asks
for it. -/
theorem Table.mem_typeNames_iff (hqualify : r.qualifyMembers.isTruthy = false)
    (hlimit : r.maxLength = .null) (hsuffix : r.escapeSuffix = .string suffix) {schema : Schema}
    {rootName : Json} {t : Table} (h : assign r schema rootName = .ok t) :
    ∃ text, r.rootText rootName = .ok text ∧
      ∀ x, Unmarked suffix x → x ∉ r.reserved.words → (x ∈ t.typeNames ↔
        ∃ segments ∈ askedNames (schema.definitions ++ [(text, schema.root)]),
          r.typeIdentifier segments = .ok x) := by
  obtain ⟨text, left, htext, hnamed⟩ := nameDefinitions_of_assign h
  obtain ⟨all, hasks, hall⟩ := asks_of_nameDefinitions hqualify hnamed
  refine ⟨text, htext, fun x hx hreserved => ?_⟩
  have htypes : x ∈ t.typeNames ↔ x ∈ all := by
    rw [hall, typeNames, types_eq, List.map_map, List.map_append, List.mem_cons, List.mem_append,
      List.mem_append, List.map_singleton, List.mem_singleton, or_right_comm, or_comm]
    rfl
  rw [htypes, hasks.mem_iff hlimit hsuffix hx hreserved]
  simp [Rules.freshNames]

end Typegen.Naming
