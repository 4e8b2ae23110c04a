import Mathlib.Data.List.Forall2
import Mathlib.Data.List.Nodup
import Typegen.Json.Basic

/-!
# Keys

Lists of keys with values are searched from the front.  When no key occurs twice, the value that is
found for a key is the value of the only entry with that key.  `Json.Distinct` says that no object
of a value repeats a key, at any depth, as is the case for every value that has been read into
tables.
-/

namespace Typegen

section Lookup

variable {κ β : Type} [BEq κ] [LawfulBEq κ]

theorem mem_of_lookup {es : List (κ × β)} {k : κ} {b : β} (h : es.lookup k = some b) :
    (k, b) ∈ es := by
  obtain ⟨before, after, rfl, -⟩ := List.lookup_eq_some_iff.1 h
  simp

theorem lookup_of_mem {es : List (κ × β)} (hes : (es.map Prod.fst).Nodup) {k : κ} {b : β}
    (h : (k, b) ∈ es) : es.lookup k = some b := by
  induction es with
  | nil => simp at h
  | cons e es ih =>
    rw [List.map_cons, List.nodup_cons] at hes
    rw [List.lookup_cons]
    rcases List.mem_cons.1 h with rfl | h
    · simp
    · have hne : k ≠ e.1 := by
        rintro rfl
        exact hes.1 (List.mem_map.2 ⟨_, h, rfl⟩)
      rw [beq_false_of_ne hne]
      exact ih hes.2 h

theorem lookup_eq_some_iff_mem {es : List (κ × β)} (hes : (es.map Prod.fst).Nodup) {k : κ} {b : β} :
    es.lookup k = some b ↔ (k, b) ∈ es :=
  ⟨mem_of_lookup, lookup_of_mem hes⟩

theorem exists_lookup_of_mem_keys {es : List (κ × β)} {k : κ} (h : k ∈ es.map Prod.fst) :
    ∃ b, es.lookup k = some b := by
  rw [← Option.isSome_iff_exists, List.lookup_isSome_iff]
  obtain ⟨e, he, rfl⟩ := List.mem_map.1 h
  exact ⟨e, he, by simp⟩

theorem lookup_cons_eq [DecidableEq κ] (key k : κ) (b : β) (es : List (κ × β)) :
    ((key, b) :: es).lookup k = if k = key then some b else es.lookup k := by
  rw [List.lookup_cons]
  by_cases h : k = key
  · rw [if_pos h, h, beq_self_eq_true]
  · rw [if_neg h, beq_false_of_ne h]

end Lookup

theorem lookup_setMember {α : Type} (key k : String) (a : α) (es : List (String × α)) :
    (Json.setMember key a es).lookup k = if k = key then some a else es.lookup k := by
  induction es with
  | nil => rw [Json.setMember, lookup_cons_eq]
  | cons e es ih =>
    obtain ⟨k', b⟩ := e
    rw [Json.setMember, lookup_cons_eq]
    split
    · next hkey =>
      rw [lookup_cons_eq, hkey]
      split <;> rfl
    · next hkey =>
      rw [lookup_cons_eq, ih]
      by_cases h : k = k'
      · rw [if_pos h, if_pos h, if_neg (h ▸ hkey)]
      · rw [if_neg h, if_neg h]

theorem mem_setMember {α : Type} {key : String} {v : α} {es : List (String × α)}
    {e : String × α} (h : e ∈ Json.setMember key v es) : e = (key, v) ∨ e ∈ es := by
  induction es with
  | nil => exact .inl (by simpa [Json.setMember] using h)
  | cons entry rest ih =>
    obtain ⟨k, w⟩ := entry
    rw [Json.setMember] at h
    split at h
    · next hkey =>
      rcases List.mem_cons.1 h with rfl | h
      · exact .inl (by rw [hkey])
      · exact .inr (List.mem_cons_of_mem _ h)
    · rcases List.mem_cons.1 h with rfl | h
      · exact .inr List.mem_cons_self
      · exact (ih h).imp_right (List.mem_cons_of_mem _)

namespace Json

variable {κ α : Type} [DecidableEq κ]

theorem setMember_of_notMem {key : κ} {es : List (κ × α)} (h : key ∉ es.map Prod.fst)
    (v : α) : setMember key v es = es ++ [(key, v)] := by
  induction es with
  | nil => rfl
  | cons e es ih =>
    obtain ⟨k, w⟩ := e
    rw [List.map_cons, List.mem_cons, not_or] at h
    rw [setMember, if_neg (Ne.symm h.1), ih h.2]
    rfl

/-- Setting new keys one after another puts them at the end. -/
theorem foldl_setMember (front ms : List (κ × α)) (h : ((front ++ ms).map Prod.fst).Nodup) :
    ms.foldl (fun table m => setMember m.1 m.2 table) front = front ++ ms := by
  induction ms generalizing front with
  | nil => simp
  | cons m ms ih =>
    have hnew : m.1 ∉ front.map Prod.fst := by
      rw [List.map_append, List.nodup_append] at h
      exact fun hmem => h.2.2 _ hmem _ List.mem_cons_self rfl
    rw [List.foldl_cons, setMember_of_notMem hnew, ih _ (by simpa using h)]
    simp

/-- What is in a table was set, or was there before. -/
theorem mem_foldl_setMember {β : Type} {key : β → String} {value : β → α} {xs : List β}
    {table : List (String × α)} {e : String × α}
    (h : e ∈ xs.foldl (fun table x => setMember (key x) (value x) table) table) :
    e ∈ table ∨ ∃ x ∈ xs, e = (key x, value x) := by
  induction xs generalizing table with
  | nil => exact .inl h
  | cons x xs ih =>
    rcases ih h with h | ⟨y, hy, rfl⟩
    · rcases mem_setMember h with rfl | h
      · exact .inr ⟨x, List.mem_cons_self, rfl⟩
      · exact .inl h
    · exact .inr ⟨y, List.mem_cons_of_mem _ hy, rfl⟩

theorem nodup_setMember {es : List (String × α)} (h : (es.map Prod.fst).Nodup) (key : String)
    (v : α) : ((setMember key v es).map Prod.fst).Nodup := by
  induction es with
  | nil => simp [setMember]
  | cons e es ih =>
    obtain ⟨k, w⟩ := e
    rw [List.map_cons, List.nodup_cons] at h
    rw [setMember]
    split
    · exact List.nodup_cons.2 h
    · next hne =>
      refine List.nodup_cons.2 ⟨fun hmem => ?_, ih h.2⟩
      obtain ⟨e, he, hkey⟩ := List.mem_map.1 hmem
      rcases mem_setMember he with rfl | he
      · exact hne hkey.symm
      · exact h.1 (hkey ▸ List.mem_map_of_mem he)

variable {members : List (String × Json)} {key : String}

theorem mem_keys_iff : key ∈ keys members ↔ ∃ v, get? members key = some v := by
  constructor
  · exact exists_lookup_of_mem_keys
  · rintro ⟨v, hv⟩
    exact List.mem_map_of_mem (f := Prod.fst) (mem_of_lookup hv)

theorem hasKey_iff : hasKey members key = true ↔ key ∈ keys members := by
  simp [hasKey, keys]

/-- Dropping the members with one key changes nothing about the others. -/
theorem get?_filter_ne {other : String} (h : key ≠ other) :
    get? (members.filter fun m => m.1 ≠ other) key = get? members key := by
  unfold get?
  induction members with
  | nil => rfl
  | cons m members ih =>
    rw [List.filter_cons, lookup_cons_eq m.1 key m.2]
    split
    · rw [lookup_cons_eq m.1 key m.2, ih]
    · next hm =>
      have hne : key ≠ m.1 := by
        rintro rfl
        exact hm (by simpa using h)
      rw [if_neg hne, ih]

theorem mem_keys_filter_ne {other : String} :
    key ∈ keys (members.filter fun m => m.1 ≠ other) ↔ key ∈ keys members ∧ key ≠ other := by
  constructor
  · intro h
    obtain ⟨m, hm, rfl⟩ := List.mem_map.1 h
    obtain ⟨hm, hne⟩ := List.mem_filter.1 hm
    exact ⟨List.mem_map_of_mem hm, by simpa using hne⟩
  · rintro ⟨h, hne⟩
    rw [mem_keys_iff] at h ⊢
    rwa [get?_filter_ne hne]

/-- No object inside the value repeats a key. -/
inductive Distinct {τ : Type} : Json τ → Prop
  | null : Distinct .null
  | bool (b : Bool) : Distinct (.bool b)
  | int (n : Int) : Distinct (.int n)
  | float (x : Binary64) : Distinct (.float x)
  | string (s : τ) : Distinct (.string s)
  | array {items : List (Json τ)} (hitems : ∀ v ∈ items, Distinct v) : Distinct (.array items)
  | object {members : List (τ × Json τ)} (hkeys : (keys members).Nodup)
      (hmembers : ∀ m ∈ members, Distinct m.2) : Distinct (.object members)

attribute [simp] Distinct.null Distinct.bool Distinct.int Distinct.float Distinct.string

@[simp] theorem distinct_array_iff {items : List Json} :
    Distinct (.array items) ↔ ∀ v ∈ items, Distinct v := by
  refine ⟨fun h => ?_, .array⟩
  cases h with
  | array hitems => exact hitems

@[simp] theorem distinct_object_iff :
    Distinct (.object members) ↔ (keys members).Nodup ∧ ∀ m ∈ members, Distinct m.2 := by
  refine ⟨fun h => ?_, fun h => .object h.1 h.2⟩
  cases h with
  | object hkeys hmembers => exact ⟨hkeys, hmembers⟩

theorem Distinct.of_get? (h : Distinct (.object members)) {v : Json}
    (hv : get? members key = some v) : Distinct v :=
  (distinct_object_iff.1 h).2 _ (mem_of_lookup hv)

end Json

end Typegen
