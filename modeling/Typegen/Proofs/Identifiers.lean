import Mathlib.Data.List.Nodup
import Typegen.Naming.Namespace
import Typegen.Proofs.Outcome

/-!
# Handing out identifiers

What a namespace promises.  `claim_spec` is about one identifier: it was free, it is taken now, and
it keeps to the length limit.  `Hands` is a run of such steps, and its lemmas say what holds of all
the identifiers of a run: they are different from each other and from all that were taken before.
-/

namespace Typegen.Naming

/-! ## Length limits -/

theorem length_truncate_le {limit : Int} (h : 0 ≤ limit) (name : String) :
    ((truncate (some limit) name).length : Int) ≤ limit := by
  simp only [truncate, cutChars, if_pos h, String.length_ofList, List.length_take]
  omega

theorem length_numbered_le {limit : Int} {base name : String} {n : Nat}
    (h : numbered (some limit) base n = some name) : (name.length : Int) ≤ limit := by
  simp only [numbered] at h
  split at h
  · cases h
  · next hfits =>
    cases h
    have hroom : 0 ≤ limit - ((numberText n).length : Int) := by omega
    have := length_truncate_le hroom base
    rw [String.length_append]
    omega

namespace Namespace

/-! ## One identifier -/

variable {ns ns' ns'' : Namespace} {name id : String} {path : Option String}

theorem isFree_iff : ns.isFree name = true ↔ name ∉ ns.taken ∧ name ∉ ns.reserved := by
  simp [isFree]

theorem firstNumbered_eq_some {limit : Option Int} {base : String} {tries n : Nat}
    (h : ns.firstNumbered limit base tries n = some name) :
    ns.isFree name = true ∧ ∃ k, numbered limit base k = some name := by
  induction tries generalizing n with
  | zero => cases h
  | succ tries ih =>
    rw [firstNumbered] at h
    split at h
    · cases h
    · next candidate hcandidate =>
      split at h
      · next hfree =>
        cases h
        exact ⟨hfree, n, hcandidate⟩
      · exact ih h

theorem length_base_le {limit : Int} (hlimit : 0 ≤ limit) {base : String}
    (h : ns.base (some limit) name = .ok base) : (base.length : Int) ≤ limit := by
  simp only [Namespace.base] at h
  split at h
  · split at h
    · cases h
      exact length_truncate_le hlimit _
    · cases h
  · cases h
    exact length_truncate_le hlimit _

/-- An identifier that is handed out was free and keeps to a positive limit; all that changes is
that it is taken. -/
theorem claim_spec (h : ns.claim name path = .ok (id, ns')) :
    ns.isFree id = true ∧ ns' = { ns with taken := id :: ns.taken } ∧
      ∀ limit : Int, lengthLimit ns.maxLength = .ok (some limit) → 0 < limit →
        (id.length : Int) ≤ limit := by
  simp only [claim, bind_eq_ok] at h
  obtain ⟨limit, hlimit, base, hbase, h⟩ := h
  split at h
  · next found hfound =>
    rw [pure_eq_ok, Prod.mk.injEq] at h
    obtain ⟨rfl, rfl⟩ := h
    split at hfound
    · next hfree =>
      cases hfound
      refine ⟨hfree, rfl, fun l hl hpos => ?_⟩
      rw [hlimit, Except.ok.injEq] at hl
      subst hl
      exact length_base_le (by omega) hbase
    · obtain ⟨hfree, k, hk⟩ := firstNumbered_eq_some hfound
      refine ⟨hfree, rfl, fun l hl hpos => ?_⟩
      rw [hlimit, Except.ok.injEq] at hl
      subst hl
      exact length_numbered_le hk
  · cases h

/-- An identifier that is handed out is the base of its name, or the base with a number. -/
theorem exists_base_of_claim (h : ns.claim name path = .ok (id, ns')) : ∃ limit base,
      lengthLimit ns.maxLength = .ok limit ∧ ns.base limit name = .ok base ∧
      (id = base ∨ ∃ k, numbered limit base k = some id) := by
  simp only [claim, bind_eq_ok] at h
  obtain ⟨limit, hlimit, base, hbase, h⟩ := h
  refine ⟨limit, base, hlimit, hbase, ?_⟩
  split at h
  · next found hfound =>
    rw [pure_eq_ok, Prod.mk.injEq] at h
    obtain ⟨rfl, -⟩ := h
    split at hfound
    · exact .inl (Option.some.inj hfound).symm
    · exact .inr (firstNumbered_eq_some hfound).2
  · cases h

/-- Where an identifier is needed has no influence on it. -/
theorem claim_place {path' : Option String} {r r' : String × Namespace}
    (h : ns.claim name path = .ok r) (h' : ns.claim name path' = .ok r') : r = r' := by
  simp only [claim, bind_eq_ok] at h h'
  obtain ⟨limit, hlimit, base, hbase, h⟩ := h
  obtain ⟨limit', hlimit', base', hbase', h'⟩ := h'
  obtain rfl := Except.ok.inj (hlimit.symm.trans hlimit')
  obtain rfl := Except.ok.inj (hbase.symm.trans hbase')
  split at h
  · next id hid =>
    rw [hid] at h'
    exact Except.ok.inj (h.symm.trans h')
  · cases h

/-! ## Runs -/

/-- The identifiers are handed out one after the other, and the second namespace is left. -/
inductive Hands : Namespace → List String → Namespace → Prop
  | nil (ns : Namespace) : Hands ns [] ns
  | cons {ns ns' ns'' : Namespace} {name id : String} {path : Option String} {ids : List String}
      (hclaim : ns.claim name path = .ok (id, ns')) (hrest : Hands ns' ids ns'') :
      Hands ns (id :: ids) ns''

variable {ids more : List String}

theorem Hands.append (h : Hands ns ids ns') (h' : Hands ns' more ns'') :
    Hands ns (ids ++ more) ns'' := by
  induction h with
  | nil => exact h'
  | cons hclaim _ ih => exact .cons hclaim (ih h')

/-- All that changes is what is taken. -/
theorem Hands.exists_taken (h : Hands ns ids ns') : ∃ taken, ns' = { ns with taken := taken } := by
  induction h with
  | nil => exact ⟨_, rfl⟩
  | cons hclaim _ ih =>
    obtain ⟨-, rfl, -⟩ := claim_spec hclaim
    exact ih

theorem Hands.notMem_taken (h : Hands ns ids ns') (hid : id ∈ ids) : id ∉ ns.taken := by
  induction h with
  | nil => simp at hid
  | cons hclaim _ ih =>
    obtain ⟨hfree, rfl, -⟩ := claim_spec hclaim
    rcases List.mem_cons.1 hid with rfl | hid
    · exact (isFree_iff.1 hfree).1
    · exact fun htaken => ih hid (List.mem_cons_of_mem _ htaken)

theorem Hands.nodup (h : Hands ns ids ns') : ids.Nodup := by
  induction h with
  | nil => exact List.nodup_nil
  | cons hclaim hrest ih =>
    obtain ⟨-, rfl, -⟩ := claim_spec hclaim
    exact List.nodup_cons.2 ⟨fun hmem => hrest.notMem_taken hmem List.mem_cons_self, ih⟩

theorem Hands.notMem_reserved (h : Hands ns ids ns') (hid : id ∈ ids) : id ∉ ns.reserved := by
  induction h with
  | nil => simp at hid
  | cons hclaim _ ih =>
    obtain ⟨hfree, rfl, -⟩ := claim_spec hclaim
    rcases List.mem_cons.1 hid with rfl | hid
    · exact (isFree_iff.1 hfree).2
    · exact ih hid

theorem Hands.length_le (h : Hands ns ids ns') (hid : id ∈ ids) {limit : Int}
    (hlimit : lengthLimit ns.maxLength = .ok (some limit)) (hpos : 0 < limit) :
    (id.length : Int) ≤ limit := by
  induction h with
  | nil => simp at hid
  | cons hclaim _ ih =>
    obtain ⟨-, rfl, hlength⟩ := claim_spec hclaim
    rcases List.mem_cons.1 hid with rfl | hid
    · exact hlength limit hlimit hpos
    · exact ih hid hlimit

end Namespace

end Typegen.Naming
