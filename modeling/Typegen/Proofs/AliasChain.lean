import Mathlib.Logic.Relation
import Typegen.Proofs.Keys
import Typegen.Proofs.Resolved

/-!
# Alias chains

The alias chain of a definition goes on as long as the body of a member is a reference
(`Schema.chainAt`).  It ends at a body of another form, or it comes back to a member and never ends.
It is followed through names that have not been seen, so a walk along it is over in any case, and it
has missed nothing by then: a name that has been seen is a member, so the chain loops
(`exists_loop_of_followAlias`).

`NullChain` describes a chain that ends at a nullable node and may take any way to it; cutting its
loops gives one that takes no name twice (`NullChain.exists_nodup`), so that no nullable member is
missed either (`chainNullable_iff`).
-/

namespace Typegen.Schema

/-- References lead through the given names from a node to one that is nullable. -/
inductive NullChain (s : Schema) : List String → Node → Prop
  | here {n : Node} (hnull : n.nullable = true) : NullChain s [] n
  | step {info : Info} {t : String} {next : Node} {ts : List String}
      (hnext : s.definition? t = some next) (hrest : NullChain s ts next) :
      NullChain s (t :: ts) (.ref info t)

variable {s : Schema} {d e t : String} {n node : Node} {k j : Nat} {unseen ts : List String}

theorem NullChain.subset_names (h : NullChain s ts n) : ts ⊆ s.names := by
  induction h with
  | here => simp
  | step hnext _ ih =>
    exact List.cons_subset.2 ⟨List.mem_map_of_mem (f := Prod.fst) (mem_of_lookup hnext), ih⟩

/-- A chain can be entered at any name that it leads through. -/
theorem NullChain.of_append {before after : List String} {next : Node}
    (h : NullChain s (before ++ t :: after) n) (hnext : s.definition? t = some next) :
    NullChain s after next := by
  induction before generalizing n with
  | nil =>
    cases h with
    | step hnext' hrest =>
      cases hnext.symm.trans hnext'
      exact hrest
  | cons b before ih =>
    cases h with
    | step _ hrest => exact ih hrest

/-- A chain without its loops. -/
theorem NullChain.exists_nodup (h : NullChain s ts n) : ∃ ts', ts'.Nodup ∧ NullChain s ts' n := by
  induction h with
  | here hnull => exact ⟨[], List.nodup_nil, .here hnull⟩
  | @step info t next ts hnext _ ih =>
    obtain ⟨ts', hnodup, hchain⟩ := ih
    by_cases ht : t ∈ ts'
    · obtain ⟨before, after, rfl⟩ := List.append_of_mem ht
      exact ⟨t :: after, hnodup.of_append_right, .step hnext (hchain.of_append hnext)⟩
    · exact ⟨t :: ts', List.nodup_cons.2 ⟨ht, hnodup⟩, .step hnext hchain⟩

theorem NullChain.chainNullable (h : NullChain s ts n) (hnodup : ts.Nodup) (hunseen : ts ⊆ unseen) :
    s.chainNullable unseen n = true := by
  induction h generalizing unseen with
  | @here n hnull => cases n <;> simp [Schema.chainNullable, hnull]
  | @step info t next ts hnext _ ih =>
    rw [List.nodup_cons] at hnodup
    rw [List.cons_subset] at hunseen
    have hrest : ts ⊆ unseen.erase t := fun t' ht' =>
      (List.mem_erase_of_ne (ne_of_mem_of_not_mem ht' hnodup.1)).2 (hunseen.2 ht')
    rw [Schema.chainNullable]
    simp only [hunseen.1, if_true, hnext, ih hnodup.2 hrest, Bool.or_true]

theorem exists_nullChain (h : s.chainNullable unseen n = true) : ∃ ts, NullChain s ts n := by
  fun_induction s.chainNullable unseen n with
  | case1 unseen n ih =>
    rw [Bool.or_eq_true] at h
    rcases h with hnull | h
    · exact ⟨[], .here hnull⟩
    · split at h
      · next info t =>
        split at h
        · next hunseen =>
          split at h
          · next next hnext =>
            obtain ⟨ts, hchain⟩ := ih t hunseen next h
            exact ⟨t :: ts, .step hnext hchain⟩
          · cases h
        · cases h
      · cases h

theorem chainNullable_iff : s.chainNullable s.names n = true ↔ ∃ ts, NullChain s ts n := by
  constructor
  · exact exists_nullChain
  · rintro ⟨ts, h⟩
    obtain ⟨ts', hnodup, hchain⟩ := h.exists_nodup
    exact hchain.chainNullable hnodup hchain.subset_names

theorem isNullable_of_definition {name : String} {body : Node}
    (h : s.definition? name = some body) :
    s.isNullable name = .ok (s.chainNullable s.names body) := by
  rw [isNullable, definition, h]
  rfl

/-- A node and what it refers to are nullable together. -/
theorem chainNullable_ref {info : Info} {next : Node} (h : s.definition? t = some next) :
    s.chainNullable s.names (.ref info t) = (info.nullable || s.chainNullable s.names next) := by
  rw [Bool.eq_iff_iff, Bool.or_eq_true, chainNullable_iff, chainNullable_iff]
  constructor
  · rintro ⟨ts, hchain⟩
    cases hchain with
    | here hnull => exact .inl hnull
    | step hnext hrest =>
      cases h.symm.trans hnext
      exact .inr ⟨_, hrest⟩
  · rintro (hnull | ⟨ts, hchain⟩)
    · exact ⟨[], .here hnull⟩
    · exact ⟨t :: ts, .step h hchain⟩

/-! ## Members of a chain -/

open Relation (TransGen)

/-- A definition is only another name for a definition. -/
def Renames (s : Schema) (a b : String) : Prop := ∃ info, s.definition? a = some (.ref info b)

/-- The members of the alias chain of a definition, by position: the definition itself, and behind a
member whose body is a reference the definition it refers to. -/
def chainAt (s : Schema) (d : String) : Nat → Option String
  | 0 => some d
  | k + 1 => ((s.chainAt d k).bind s.definition?).bind Node.target?

/-- The bodies of the members. -/
def bodyAt (s : Schema) (d : String) (k : Nat) : Option Node := (s.chainAt d k).bind s.definition?

theorem chainAt_succ (d : String) (k : Nat) :
    s.chainAt d (k + 1) = (s.bodyAt d k).bind Node.target? :=
  rfl

theorem Node.target?_eq_some_iff : n.target? = some t ↔ ∃ info, n = .ref info t := by
  cases n <;> simp [Node.target?]

theorem Node.form_eq_ref_iff : n.form = .ref ↔ ∃ info t, n = .ref info t := by
  cases n <;> simp [Node.form]

theorem chainAt_succ_eq_some_iff :
    s.chainAt d (k + 1) = some t ↔ ∃ e, s.chainAt d k = some e ∧ s.Renames e t := by
  simp only [chainAt, Option.bind_eq_some_iff, Node.target?_eq_some_iff, Renames]
  constructor
  · rintro ⟨_, ⟨e, he, hbody⟩, info, rfl⟩
    exact ⟨e, he, info, hbody⟩
  · rintro ⟨e, he, info, hbody⟩
    exact ⟨_, ⟨e, he, hbody⟩, info, rfl⟩

/-- Behind a member the chain goes on as that member's own. -/
theorem chainAt_add (d : String) (j k : Nat) :
    s.chainAt d (j + k) = (s.chainAt d j).bind fun e => s.chainAt e k := by
  induction k with
  | zero => cases h : s.chainAt d j <;> simp [chainAt]
  | succ k ih =>
    rw [← Nat.add_assoc, chainAt, ih]
    cases s.chainAt d j <;> rfl

theorem bodyAt_add (h : s.chainAt d j = some e) (k : Nat) : s.bodyAt d (j + k) = s.bodyAt e k := by
  rw [bodyAt, chainAt_add, h]
  rfl

theorem Renames.chainAt_one (h : s.Renames d t) : s.chainAt d 1 = some t :=
  chainAt_succ_eq_some_iff.2 ⟨d, rfl, h⟩

/-- A chain has no gaps. -/
theorem exists_chainAt_of_le (h : s.chainAt d k = some e) (hjk : j ≤ k) :
    ∃ e', s.chainAt d j = some e' := by
  obtain ⟨i, rfl⟩ := Nat.exists_eq_add_of_le hjk
  rw [chainAt_add, Option.bind_eq_some_iff] at h
  obtain ⟨e', he', -⟩ := h
  exact ⟨e', he'⟩

/-- Every member before the last one in sight has a reference for a body. -/
theorem exists_ref_of_chainAt (h : s.chainAt d k = some e) (hjk : j < k) :
    ∃ n, s.bodyAt d j = some n ∧ n.form = .ref := by
  obtain ⟨e', he'⟩ := exists_chainAt_of_le h hjk
  rw [chainAt_succ, Option.bind_eq_some_iff] at he'
  obtain ⟨n, hn, ht⟩ := he'
  refine ⟨n, hn, ?_⟩
  obtain ⟨info, rfl⟩ := Node.target?_eq_some_iff.1 ht
  rfl

theorem exists_bodyAt_of_le (h : s.bodyAt d k = some n) (hjk : j ≤ k) :
    ∃ n', s.bodyAt d j = some n' := by
  rcases Nat.eq_or_lt_of_le hjk with rfl | hlt
  · exact ⟨n, h⟩
  · obtain ⟨e, he, -⟩ := Option.bind_eq_some_iff.1 h
    obtain ⟨n', hn', -⟩ := exists_ref_of_chainAt he hlt
    exact ⟨n', hn'⟩

/-- There is nothing behind a body that is no reference. -/
theorem le_of_bodyAt (hn : s.bodyAt d j = some n) (hform : n.form ≠ .ref)
    (h : s.chainAt d k = some e) : k ≤ j := by
  by_contra hlt
  obtain ⟨n', hn', hform'⟩ := exists_ref_of_chainAt h (Nat.lt_of_not_le hlt)
  cases hn.symm.trans hn'
  exact hform hform'

/-- A chain that comes back to a member never ends. -/
theorem exists_chainAt_of_loop (hjk : j < k) (hj : s.chainAt d j = some e)
    (hk : s.chainAt d k = some e) (i : Nat) : ∃ e', s.chainAt d i = some e' := by
  induction i using Nat.strongRecOn with
  | ind i ih =>
    by_cases hi : i ≤ k
    · exact exists_chainAt_of_le hk hi
    · -- Behind the second visit stands what stands behind the first.
      obtain ⟨m, rfl⟩ := Nat.exists_eq_add_of_lt (Nat.lt_of_not_le hi)
      have hback : s.chainAt d (k + m + 1) = s.chainAt d (j + (m + 1)) := by
        rw [Nat.add_assoc, chainAt_add, chainAt_add, hj, hk]
      rw [hback]
      exact ih (j + (m + 1)) (by omega)

/-! ## Following a chain -/

theorem exists_followAlias (hnames : ∀ a b, s.Renames a b → b ∈ s.names)
    (hd : s.definition? d = some node) : ∃ result, s.followAlias unseen node = .ok result := by
  fun_induction s.followAlias unseen node generalizing d with
  | case1 unseen info t ht next hnext ih => exact ih hnext
  | case2 unseen info t ht hnext =>
    obtain ⟨next, hnext'⟩ := exists_lookup_of_mem_keys (hnames d t ⟨info, hd⟩)
    cases hnext.symm.trans hnext'
  | case3 => exact ⟨none, rfl⟩
  | case4 unseen node => exact ⟨some node, rfl⟩

/-- What is found is the body of a member, and no reference. -/
theorem exists_bodyAt_of_followAlias (hd : s.definition? d = some node)
    (h : s.followAlias unseen node = .ok (some n)) :
    ∃ k, s.bodyAt d k = some n ∧ n.form ≠ .ref := by
  fun_induction s.followAlias unseen node generalizing d with
  | case1 unseen info t ht next hnext ih =>
    obtain ⟨k, hk, hform⟩ := ih hnext h
    have hstep : s.Renames d t := ⟨info, hd⟩
    exact ⟨1 + k, (bodyAt_add hstep.chainAt_one k).trans hk, hform⟩
  | case2 => cases h
  | case3 => cases h
  | case4 unseen node href =>
    cases h
    refine ⟨0, hd, fun hform => ?_⟩
    obtain ⟨info, t, rfl⟩ := Node.form_eq_ref_iff.1 hform
    exact href info t rfl

/-- Where nothing is found, the chain comes back to a member: the names that have been seen are
members up to the present one. -/
theorem exists_loop_of_followAlias (hnames : ∀ a b, s.Renames a b → b ∈ s.names)
    (hk : s.bodyAt d k = some node)
    (hseen : ∀ t ∈ s.names, t ∉ unseen → ∃ j ≤ k, s.chainAt d j = some t)
    (h : s.followAlias unseen node = .ok none) :
    ∃ i j e, i < j ∧ s.chainAt d i = some e ∧ s.chainAt d j = some e := by
  fun_induction s.followAlias unseen node generalizing k with
  | case1 unseen info t ht next hnext ih =>
    have hsucc : s.chainAt d (k + 1) = some t := by rw [chainAt_succ, hk]; rfl
    have hbody : s.bodyAt d (k + 1) = some next := by rw [bodyAt, hsucc]; exact hnext
    refine ih hbody (fun t' ht' hgone => ?_) h
    by_cases heq : t' = t
    · exact ⟨k + 1, Nat.le_refl _, heq ▸ hsucc⟩
    · rw [List.mem_erase_of_ne heq] at hgone
      obtain ⟨j, hj, hmember⟩ := hseen t' ht' hgone
      exact ⟨j, by omega, hmember⟩
  | case2 => cases h
  | case3 unseen info t ht =>
    have hsucc : s.chainAt d (k + 1) = some t := by rw [chainAt_succ, hk]; rfl
    obtain ⟨e, he, hrename⟩ := chainAt_succ_eq_some_iff.1 hsucc
    obtain ⟨j, hj, hmember⟩ := hseen t (hnames e t hrename) ht
    exact ⟨j, k + 1, t, by omega, hmember, hsucc⟩
  | case4 => cases h

section

variable {d : String} (hd : d ∈ s.names)
include hd

theorem exists_bodyAt_of_resolveAlias {n : Node} (h : s.resolveAlias d = .ok (some n)) :
    ∃ k, s.bodyAt d k = some n ∧ n.form ≠ .ref := by
  obtain ⟨body, hbody⟩ := exists_lookup_of_mem_keys hd
  rw [resolveAlias, definition, definition?, hbody] at h
  exact exists_bodyAt_of_followAlias hbody h

variable (hnames : ∀ a b, s.Renames a b → b ∈ s.names)
include hnames

theorem exists_resolveAlias : ∃ result, s.resolveAlias d = .ok result := by
  obtain ⟨body, hbody⟩ := exists_lookup_of_mem_keys hd
  rw [resolveAlias, definition, definition?, hbody]
  exact exists_followAlias hnames hbody

/-- Nothing is at the end of a chain just when it comes back to a member. -/
theorem resolveAlias_eq_none_iff_loop : s.resolveAlias d = .ok none ↔
    ∃ i j e, i < j ∧ s.chainAt d i = some e ∧ s.chainAt d j = some e := by
  constructor
  · intro h
    obtain ⟨body, hbody⟩ := exists_lookup_of_mem_keys hd
    rw [resolveAlias, definition, definition?, hbody] at h
    exact exists_loop_of_followAlias hnames (k := 0) hbody (fun t ht hunseen => absurd ht hunseen) h
  · rintro ⟨i, j, e, hij, hi, hj⟩
    obtain ⟨result, hresult⟩ := exists_resolveAlias hd hnames
    cases result with
    | none => exact hresult
    | some n =>
      obtain ⟨k, hk, hform⟩ := exists_bodyAt_of_resolveAlias hd hresult
      obtain ⟨e', he'⟩ := exists_chainAt_of_loop hij hi hj (k + 1)
      exact absurd (le_of_bodyAt hk hform he') (by omega)

/-- Nothing is at the end of a chain just when it has no end. -/
theorem resolveAlias_eq_none_iff : s.resolveAlias d = .ok none ↔
    ∀ k, ∃ n, s.bodyAt d k = some n ∧ n.form = .ref := by
  constructor
  · intro h k
    obtain ⟨i, j, e, hij, hi, hj⟩ := (resolveAlias_eq_none_iff_loop hd hnames).1 h
    obtain ⟨e', he'⟩ := exists_chainAt_of_loop hij hi hj (k + 1)
    exact exists_ref_of_chainAt he' (Nat.lt_succ_self k)
  · intro h
    obtain ⟨result, hresult⟩ := exists_resolveAlias hd hnames
    cases result with
    | none => exact hresult
    | some n =>
      obtain ⟨k, hk, hform⟩ := exists_bodyAt_of_resolveAlias hd hresult
      obtain ⟨n', hn', hform'⟩ := h k
      cases hk.symm.trans hn'
      exact absurd hform' hform

/-- What is at the end of a chain is its only body that is no reference. -/
theorem resolveAlias_eq_some_iff {n : Node} : s.resolveAlias d = .ok (some n) ↔
    ∃ k, s.bodyAt d k = some n ∧ n.form ≠ .ref := by
  refine ⟨exists_bodyAt_of_resolveAlias hd, ?_⟩
  rintro ⟨k, hk, hform⟩
  obtain ⟨result, hresult⟩ := exists_resolveAlias hd hnames
  cases result with
  | none =>
    obtain ⟨n', hn', hform'⟩ := (resolveAlias_eq_none_iff hd hnames).1 hresult k
    cases hk.symm.trans hn'
    exact absurd hform' hform
  | some n' =>
    obtain ⟨k', hk', hform'⟩ := exists_bodyAt_of_resolveAlias hd hresult
    obtain ⟨e, he, -⟩ := Option.bind_eq_some_iff.1 hk
    obtain ⟨e', he', -⟩ := Option.bind_eq_some_iff.1 hk'
    obtain rfl : k = k' := Nat.le_antisymm (le_of_bodyAt hk' hform' he) (le_of_bodyAt hk hform he')
    cases hk.symm.trans hk'
    exact hresult

end

theorem transGen_renames_iff : TransGen s.Renames d e ↔ ∃ k, s.chainAt d (k + 1) = some e := by
  constructor
  · intro h
    induction h with
    | single hstep => exact ⟨0, hstep.chainAt_one⟩
    | tail _ hstep ih =>
      obtain ⟨k, hk⟩ := ih
      exact ⟨k + 1, chainAt_succ_eq_some_iff.2 ⟨_, hk, hstep⟩⟩
  · rintro ⟨k, hk⟩
    induction k generalizing e with
    | zero =>
      obtain ⟨d', hd', hstep⟩ := chainAt_succ_eq_some_iff.1 hk
      cases hd'
      exact .single hstep
    | succ k ih =>
      obtain ⟨d', hd', hstep⟩ := chainAt_succ_eq_some_iff.1 hk
      exact (ih hd').tail hstep

theorem exists_resolveAlias_none_iff (hnames : ∀ a b, s.Renames a b → b ∈ s.names) :
    (∃ d ∈ s.names, s.resolveAlias d = .ok none) ↔ ∃ e, TransGen s.Renames e e := by
  constructor
  · rintro ⟨d, hd, h⟩
    obtain ⟨i, j, e, hij, hi, hj⟩ := (resolveAlias_eq_none_iff_loop hd hnames).1 h
    obtain ⟨k, rfl⟩ := Nat.exists_eq_add_of_lt hij
    rw [Nat.add_assoc, chainAt_add, hi] at hj
    exact ⟨e, transGen_renames_iff.2 ⟨k, hj⟩⟩
  · rintro ⟨e, hloop⟩
    obtain ⟨c, ⟨info, hc⟩, -⟩ := Relation.TransGen.head'_iff.1 hloop
    have he : e ∈ s.names := List.mem_map_of_mem (f := Prod.fst) (mem_of_lookup hc)
    obtain ⟨k, hk⟩ := transGen_renames_iff.1 hloop
    exact ⟨e, he, (resolveAlias_eq_none_iff_loop he hnames).2 ⟨0, k + 1, e, by omega, rfl, hk⟩⟩

/-! ## Nullable members -/

theorem NullChain.exists_bodyAt (h : NullChain s ts n) (hd : s.definition? d = some n) :
    ∃ k n', s.bodyAt d k = some n' ∧ n'.nullable = true := by
  induction h generalizing d with
  | here hnull => exact ⟨0, _, hd, hnull⟩
  | @step info t next ts hnext _ ih =>
    obtain ⟨k, n', hk, hnull⟩ := ih hnext
    have hstep : s.Renames d t := ⟨info, hd⟩
    exact ⟨1 + k, n', (bodyAt_add hstep.chainAt_one k).trans hk, hnull⟩

theorem exists_nullChain_of_bodyAt {n' : Node} (hd : s.definition? d = some n)
    (hk : s.bodyAt d k = some n') (hnull : n'.nullable = true) : ∃ ts, NullChain s ts n := by
  induction k generalizing d n with
  | zero =>
    cases hd.symm.trans hk
    exact ⟨[], .here hnull⟩
  | succ k ih =>
    obtain ⟨e, he, -⟩ := Option.bind_eq_some_iff.1 hk
    obtain ⟨t, ht⟩ := exists_chainAt_of_le he (by omega : 1 ≤ k + 1)
    obtain ⟨d', hd', info, hinfo⟩ := chainAt_succ_eq_some_iff.1 ht
    cases hd'
    cases hd.symm.trans hinfo
    rw [Nat.add_comm, bodyAt_add ht] at hk
    obtain ⟨next, hnext⟩ := exists_bodyAt_of_le hk (Nat.zero_le k)
    obtain ⟨ts, hts⟩ := ih hnext hk
    exact ⟨t :: ts, .step hnext hts⟩

theorem isNullable_eq_true_iff (hd : d ∈ s.names) :
    s.isNullable d = .ok true ↔ ∃ k n, s.bodyAt d k = some n ∧ n.nullable = true := by
  obtain ⟨body, hbody⟩ := exists_lookup_of_mem_keys hd
  rw [isNullable_of_definition hbody, Except.ok.injEq, chainNullable_iff]
  constructor
  · rintro ⟨ts, hchain⟩
    exact hchain.exists_bodyAt hbody
  · rintro ⟨k, n, hk, hnull⟩
    exact exists_nullChain_of_bodyAt hbody hk hnull

/-! ## Resolved schemas -/

theorem Sound.mem_names_of_renames (hsound : s.Sound) (a b : String) (h : s.Renames a b) :
    b ∈ s.names := by
  obtain ⟨info, hbody⟩ := h
  cases hsound.definitions _ (mem_of_lookup hbody) with
  | ref _ htarget => exact htarget

/-- Alias chains of every shape are followed to their end.  Where a chain ends, the first body that
is no reference is found; nothing is found just where the chain never reaches one, which is where it
comes back to a member, be it the first one or a later one.  A definition is nullable just when a
member is, before a loop or on it. -/
theorem aliases_of_resolve {document : Json} {schema : Schema} (hdistinct : document.Distinct)
    (hresolve : resolve document = .ok schema) {d : String} (hd : d ∈ schema.names) :
    (∃ result, schema.resolveAlias d = .ok result) ∧
    (∀ n, schema.resolveAlias d = .ok (some n) ↔ ∃ k, schema.bodyAt d k = some n ∧
      n.form ≠ .ref ∧ ∀ j < k, ∃ n', schema.bodyAt d j = some n' ∧ n'.form = .ref) ∧
    (schema.resolveAlias d = .ok none ↔
      ∀ k, ∃ n, schema.bodyAt d k = some n ∧ n.form = .ref) ∧
    (schema.resolveAlias d = .ok none ↔
      ∃ i j e, i < j ∧ schema.chainAt d i = some e ∧ schema.chainAt d j = some e) ∧
    (∃ b, schema.isNullable d = .ok b) ∧
    (schema.isNullable d = .ok true ↔
      ∃ k n, schema.bodyAt d k = some n ∧ n.nullable = true) := by
  have hnames := (sound_of_resolve hdistinct hresolve).mem_names_of_renames
  refine ⟨exists_resolveAlias hd hnames, fun n => ?_, resolveAlias_eq_none_iff hd hnames,
    resolveAlias_eq_none_iff_loop hd hnames, ?_, isNullable_eq_true_iff hd⟩
  · rw [resolveAlias_eq_some_iff hd hnames]
    constructor
    · rintro ⟨k, hk, hform⟩
      obtain ⟨e, he, -⟩ := Option.bind_eq_some_iff.1 hk
      exact ⟨k, hk, hform, fun j hj => exists_ref_of_chainAt he hj⟩
    · rintro ⟨k, hk, hform, -⟩
      exact ⟨k, hk, hform⟩
  · obtain ⟨body, hbody⟩ := exists_lookup_of_mem_keys hd
    exact ⟨_, isNullable_of_definition hbody⟩

/-- A document whose definitions are names for themselves, lead into a loop and lead to a type. -/
def loopDocument : Json := .object [
  ("definitions", .object [
    ("self", .object [("ref", .string "self")]),
    ("stem", .object [("ref", .string "left")]),
    ("left", .object [("ref", .string "right")]),
    ("right", .object [("ref", .string "left"), ("nullable", .bool true)]),
    ("name", .object [("ref", .string "text")]),
    ("text", .object [("type", .string "string")])])]

/-- The nodes of the document. -/
def loopSchema : Schema where
  definitions := [
    ("self", .ref ⟨⟨["definitions", "self"]⟩, false, some "self", []⟩ "self"),
    ("stem", .ref ⟨⟨["definitions", "stem"]⟩, false, some "stem", []⟩ "left"),
    ("left", .ref ⟨⟨["definitions", "left"]⟩, false, some "left", []⟩ "right"),
    ("right", .ref ⟨⟨["definitions", "right"]⟩, true, some "right", []⟩ "left"),
    ("name", .ref ⟨⟨["definitions", "name"]⟩, false, some "name", []⟩ "text"),
    ("text", .type ⟨⟨["definitions", "text"]⟩, false, some "text", []⟩ .string)]
  root := .empty ⟨⟨[]⟩, false, none, []⟩

theorem distinct_loop : loopDocument.Distinct := by
  simp [loopDocument, Json.keys]

theorem resolve_loop : resolve loopDocument = .ok loopSchema := by
  with_unfolding_all rfl

theorem aliases_loop : loopDocument.Distinct ∧ resolve loopDocument = .ok loopSchema ∧
    loopSchema.resolveAlias "self" = .ok none ∧ loopSchema.isNullable "self" ≠ .ok true ∧
    loopSchema.resolveAlias "stem" = .ok none ∧ loopSchema.isNullable "stem" = .ok true ∧
    loopSchema.resolveAlias "name" =
      .ok (some (.type ⟨⟨["definitions", "text"]⟩, false, some "text", []⟩ .string)) := by
  obtain ⟨-, -, -, hself, -, hselfNull⟩ :=
    aliases_of_resolve distinct_loop resolve_loop (d := "self") (by decide)
  obtain ⟨-, -, -, hstem, -, hstemNull⟩ :=
    aliases_of_resolve distinct_loop resolve_loop (d := "stem") (by decide)
  obtain ⟨-, hname, -⟩ :=
    aliases_of_resolve distinct_loop resolve_loop (d := "name") (by decide)
  refine ⟨distinct_loop, resolve_loop, hself.2 ⟨0, 1, "self", by decide, rfl, rfl⟩, ?_,
    hstem.2 ⟨1, 3, "left", by decide, rfl, rfl⟩, hstemNull.2 ⟨2, _, rfl, rfl⟩,
    (hname _).2 ⟨1, rfl, by decide, ?_⟩⟩
  · have hmembers : ∀ k, loopSchema.chainAt "self" k = some "self" := by
      intro k
      induction k with
      | zero => rfl
      | succ k ih =>
        rw [chainAt, ih]
        rfl
    rw [ne_eq, hselfNull]
    rintro ⟨k, n, hk, hnull⟩
    rw [bodyAt, hmembers] at hk
    cases hk
    cases hnull
  · intro j hj
    obtain rfl : j = 0 := by omega
    exact ⟨_, rfl, rfl⟩

end Typegen.Schema
