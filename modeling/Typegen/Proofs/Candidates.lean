import Mathlib.Data.List.Perm.Subperm
import Mathlib.Data.Nat.Find
import Typegen.Proofs.Identifiers

/-!
# Which identifier is handed out

For a name a base is made, and the base and its forms with the numbers from two on are tried in
turn.  With a limit the number takes room from the base, so forms with different numbers can be the
same; and the suffix of a reserved word can be cut off again.  `claim_of_firstFree` and
`claim_of_not_firstFree` say exactly what a claim gives.  That the tries never run out is an
argument by counting (`exists_isFree_lt`): a name together with the length of its number tells the
number, so each name that is not free spoils at most as many candidates as it has characters.
-/

namespace Typegen.Naming

/-! ## Candidates -/

/-- A name cut to a limit, if there is one. -/
def cut (limit : Option Nat) (name : String) : String :=
  limit.elim name fun l => String.ofList (name.toList.take l)

/-- The base for a name: the name is cut, and if that is reserved, it gets the suffix and is cut
again. -/
def baseFor (reserved : List String) (suffix : String) (limit : Option Nat) (name : String) :
    String :=
  if cut limit name ∈ reserved then cut limit (cut limit name ++ suffix) else cut limit name

/-- A number has fewer digits than the limit. -/
def Fits (limit : Option Nat) (n : Nat) : Prop := ∀ l ∈ limit, (toString n).length < l

/-- A base followed by a number, the base being cut to leave room for the number. -/
def candidate (limit : Option Nat) (base : String) (n : Nat) : String :=
  cut (limit.map fun l => l - (toString n).length) base ++ toString n

/-- The first of a base and its forms with the numbers from two on that is free. -/
inductive FirstFree (limit : Option Nat) (Free : String → Prop) (base : String) : String → Prop
  | base (h : Free base) : FirstFree limit Free base base
  | numbered {n : Nat} (hbase : ¬Free base) (hn : 2 ≤ n) (hfits : Fits limit n)
      (hfree : Free (candidate limit base n))
      (hleast : ∀ m, 2 ≤ m → m < n → ¬Free (candidate limit base m)) :
      FirstFree limit Free base (candidate limit base n)

variable {limit : Option Nat} {base name id : String} {m n : Nat}

theorem numberText_eq (n : Nat) : numberText n = toString n :=
  Nat.toString_eq_ofList_toDigits.symm

theorem length_toString (n : Nat) : (toString n).length = (Nat.toDigits 10 n).length := by
  rw [Nat.toString_eq_ofList_toDigits, String.length_ofList]

theorem length_toString_mono (h : m ≤ n) : (toString m).length ≤ (toString n).length := by
  rw [length_toString, length_toString]
  have hpos : 0 < (Nat.toDigits 10 n).length := Nat.length_toDigits_pos
  rw [Nat.length_toDigits_le_iff (by decide) hpos]
  exact Nat.lt_of_le_of_lt h ((Nat.length_toDigits_le_iff (by decide) hpos).1 (Nat.le_refl _))

theorem toString_injective (h : toString m = toString n) : m = n := by
  rw [Nat.toString_eq_ofList_toDigits, Nat.toString_eq_ofList_toDigits] at h
  have hdigits : Nat.toDigits 10 m = Nat.toDigits 10 n := String.ofList_injective h
  rw [← Nat.ofDigitChars_ten_toDigits (n := m), hdigits, Nat.ofDigitChars_ten_toDigits]

theorem Fits.mono (hn : Fits limit n) (h : m ≤ n) : Fits limit m := fun l hl =>
  Nat.lt_of_le_of_lt (length_toString_mono h) (hn l hl)

variable {l : Nat} {Free : String → Prop}

theorem exists_firstFree_iff : (∃ id, FirstFree limit Free base id) ↔
    Free base ∨ ∃ n, 2 ≤ n ∧ Fits limit n ∧ Free (candidate limit base n) := by
  classical
  constructor
  · rintro ⟨id, hbase | ⟨-, hn, hfits, hfree, -⟩⟩
    · exact .inl hbase
    · exact .inr ⟨_, hn, hfits, hfree⟩
  · intro h
    by_cases hbase : Free base
    · exact ⟨base, .base hbase⟩
    · have hsome : ∃ n, 2 ≤ n ∧ Free (candidate limit base n) := by
        obtain ⟨n, hn, -, hfree⟩ := h.resolve_left hbase
        exact ⟨n, hn, hfree⟩
      obtain ⟨n, hn, hfits, hfree⟩ := h.resolve_left hbase
      have hle : Nat.find hsome ≤ n := Nat.find_min' hsome ⟨hn, hfree⟩
      have hspec := Nat.find_spec hsome
      exact ⟨_, .numbered hbase hspec.1 (hfits.mono hle) hspec.2
        fun m hm hlt h => Nat.find_min hsome hlt ⟨hm, h⟩⟩

theorem not_exists_firstFree_iff :
    (¬∃ id, FirstFree (some l) Free base id) ↔
      ¬Free base ∧ ∀ n, 2 ≤ n → (toString n).length < l → ¬Free (candidate (some l) base n) := by
  have hfits : ∀ n, Fits (some l) n ↔ (toString n).length < l := by simp [Fits]
  rw [exists_firstFree_iff, not_or]
  simp only [hfits, not_exists, not_and]

theorem FirstFree.unique {id' : String} (h : FirstFree limit Free base id)
    (h' : FirstFree limit Free base id') : id = id' := by
  cases h with
  | base hfree =>
    cases h' with
    | base => rfl
    | numbered hbase => exact absurd hfree hbase
  | @numbered n hbase hn _ hfree hleast =>
    cases h' with
    | base hfree' => exact absurd hfree' hbase
    | @numbered n' _ hn' _ hfree' hleast' =>
      rcases Nat.lt_trichotomy n n' with hlt | rfl | hlt
      · exact absurd hfree (hleast' n hn hlt)
      · rfl
      · exact absurd hfree' (hleast n' hn' hlt)

theorem length_cut_le (name : String) : (cut (some l) name).length ≤ l := by
  rw [cut, Option.elim_some, String.length_ofList]
  exact List.length_take_le _ _

theorem length_baseFor_le {reserved : List String} {suffix : String} :
    (baseFor reserved suffix (some l) name).length ≤ l := by
  unfold baseFor
  split
  · exact length_cut_le _
  · exact length_cut_le _

theorem length_candidate_le (h : Fits (some l) n) : (candidate (some l) base n).length ≤ l := by
  have hcut := length_cut_le (l := l - (toString n).length) base
  have hfits := h l rfl
  rw [candidate, String.length_append]
  show (cut (some (l - (toString n).length)) base).length + _ ≤ l
  omega

theorem FirstFree.length_le (h : FirstFree (some l) Free base id) (hbase : base.length ≤ l) :
    id.length ≤ l := by
  cases h with
  | base => exact hbase
  | numbered _ _ hfits => exact length_candidate_le hfits

theorem length_toString_le_candidate (limit : Option Nat) (base : String) (n : Nat) :
    (toString n).length ≤ (candidate limit base n).length := by
  rw [candidate, String.length_append]
  exact Nat.le_add_left _ _

/-- A candidate and the length of its number tell the number. -/
theorem candidate_injective (h : candidate limit base m = candidate limit base n)
    (hlength : (toString m).length = (toString n).length) : m = n := by
  apply toString_injective
  have hlists := congrArg String.toList h
  simp only [candidate, String.toList_append] at hlists
  rw [← String.length_toList, ← String.length_toList] at hlength
  exact String.toList_injective (List.append_inj_right' hlists hlength)

/-! ## The tries -/

theorem truncate_eq (limit : Option Nat) (name : String) :
    truncate (limit.map Int.ofNat) name = cut limit name := by
  cases limit with
  | none => rfl
  | some l => rfl

theorem numbered_of_fits (h : Fits limit n) :
    numbered (limit.map Int.ofNat) base n = some (candidate limit base n) := by
  cases limit with
  | none => rw [candidate, ← numberText_eq]; rfl
  | some l =>
    have hfits := h l rfl
    rw [← numberText_eq] at hfits
    have hroom : (l : Int) - (numberText n).length = ((l - (numberText n).length : Nat) : Int) := by
      omega
    show (if (l : Int) ≤ (numberText n).length then none
      else some (truncate (some (l - (numberText n).length)) base ++ numberText n)) = _
    rw [if_neg (by omega), hroom, candidate, ← numberText_eq]
    exact congrArg (fun cut => some (cut ++ numberText n)) (truncate_eq (some _) base)

theorem numbered_of_not_fits (h : ¬Fits limit n) :
    numbered (limit.map Int.ofNat) base n = none := by
  cases limit with
  | none => exact absurd (fun l hl => by cases hl) h
  | some l =>
    have hlong : ¬(toString n).length < l := fun hl => h fun l' hl' => by cases hl'; exact hl
    rw [← numberText_eq] at hlong
    exact if_pos (by simpa using hlong)

namespace Namespace

variable {ns : Namespace}

theorem firstNumbered_of_free (tries : Nat) (hfits : Fits limit n)
    (hfree : ns.isFree (candidate limit base n) = true) :
    ns.firstNumbered (limit.map Int.ofNat) base (tries + 1) n = some (candidate limit base n) := by
  rw [firstNumbered, numbered_of_fits hfits]
  exact if_pos hfree

theorem firstNumbered_of_taken (tries : Nat) (hfits : Fits limit n)
    (hfree : ¬ns.isFree (candidate limit base n) = true) :
    ns.firstNumbered (limit.map Int.ofNat) base (tries + 1) n =
      ns.firstNumbered (limit.map Int.ofNat) base tries (n + 1) := by
  rw [firstNumbered, numbered_of_fits hfits]
  exact if_neg hfree

theorem firstNumbered_of_not_fits (tries : Nat) (hfits : ¬Fits limit n) :
    ns.firstNumbered (limit.map Int.ofNat) base (tries + 1) n = none := by
  rw [firstNumbered, numbered_of_not_fits hfits]

/-- The search finds the least number whose candidate is free, if it comes that far. -/
theorem firstNumbered_eq_some_iff {tries : Nat} :
    ns.firstNumbered (limit.map Int.ofNat) base tries n = some id ↔
      ∃ k, n ≤ k ∧ k < n + tries ∧ Fits limit k ∧ ns.isFree (candidate limit base k) = true ∧
        id = candidate limit base k ∧
        ∀ m, n ≤ m → m < k → ns.isFree (candidate limit base m) = false := by
  induction tries generalizing n with
  | zero =>
    rw [firstNumbered]
    constructor
    · intro h
      cases h
    · rintro ⟨k, hk, hk', -⟩
      omega
  | succ tries ih =>
    by_cases hfits : Fits limit n
    · by_cases hfree : ns.isFree (candidate limit base n) = true
      · rw [firstNumbered_of_free tries hfits hfree, Option.some.injEq]
        constructor
        · rintro rfl
          exact ⟨n, Nat.le_refl n, by omega, hfits, hfree, rfl, fun m hm hm' => by omega⟩
        · rintro ⟨k, hk, -, -, -, rfl, hleast⟩
          rcases Nat.eq_or_lt_of_le hk with rfl | hlt
          · rfl
          · rw [hleast n (Nat.le_refl n) hlt] at hfree
            cases hfree
      · rw [firstNumbered_of_taken tries hfits hfree, ih]
        constructor
        · rintro ⟨k, hk, hk', hfits', hfree', rfl, hleast⟩
          refine ⟨k, by omega, by omega, hfits', hfree', rfl, fun m hm hm' => ?_⟩
          rcases Nat.eq_or_lt_of_le hm with rfl | hlt
          · simpa using hfree
          · exact hleast m hlt hm'
        · rintro ⟨k, hk, hk', hfits', hfree', rfl, hleast⟩
          have hne : n ≠ k := fun heq => hfree (heq ▸ hfree')
          exact ⟨k, by omega, by omega, hfits', hfree', rfl, fun m hm => hleast m (by omega)⟩
    · rw [firstNumbered_of_not_fits tries hfits]
      constructor
      · intro h
        cases h
      · rintro ⟨k, hk, -, hfits', -⟩
        exact absurd (hfits'.mono hk) hfits

/-- The names that are not free, each with the lengths that a number at its end can have. -/
def spoiled (ns : Namespace) : List (String × Nat) :=
  (ns.taken ++ ns.reserved).flatMap fun name =>
    (List.range (name.length + 1)).map fun digits => (name, digits)

theorem tries_eq (ns : Namespace) : ns.tries = ns.spoiled.length + 1 := by
  unfold tries spoiled
  induction ns.taken ++ ns.reserved with
  | nil => rfl
  | cons name names ih =>
    rw [List.foldr_cons, ih, List.flatMap_cons, List.length_append, List.length_map,
      List.length_range]
    omega

/-- Among as many candidates as there are tries one is free. -/
theorem exists_isFree_lt (ns : Namespace) (limit : Option Nat) (base : String) (n : Nat) :
    ∃ k, n ≤ k ∧ k < n + ns.tries ∧ ns.isFree (candidate limit base k) = true := by
  by_contra hnone
  have hspoiled : ∀ k ∈ List.range' n ns.tries,
      (candidate limit base k, (toString k).length) ∈ ns.spoiled := by
    intro k hk
    rw [List.mem_range'_1] at hk
    have hnot : ¬ns.isFree (candidate limit base k) = true := fun h => hnone ⟨k, hk.1, hk.2, h⟩
    rw [isFree_iff, ← not_or, not_not, ← List.mem_append] at hnot
    refine List.mem_flatMap.2 ⟨_, hnot, List.mem_map.2 ⟨_, List.mem_range.2 ?_, rfl⟩⟩
    exact Nat.lt_succ_of_le (length_toString_le_candidate limit base k)
  have hnodup : ((List.range' n ns.tries).map
      fun k => (candidate limit base k, (toString k).length)).Nodup := by
    refine List.Nodup.map_on (fun k _ k' _ heq => ?_) List.nodup_range'
    exact candidate_injective (Prod.mk.inj heq).1 (Prod.mk.inj heq).2
  have hlength := (hnodup.subperm (List.forall_mem_map.2 hspoiled)).length_le
  rw [List.length_map, List.length_range', tries_eq] at hlength
  omega

/-! ## One claim -/

/-- The option that stands for a limit. -/
def limitOption (limit : Option Nat) : Json := limit.elim .null fun l => .int l

/-- A namespace from which nothing has been handed out. -/
def fresh (reserved : List String) (suffix : String) (limit : Option Nat) : Namespace where
  reserved := reserved
  escapeSuffix := .string suffix
  maxLength := limitOption limit

theorem lengthLimit_limitOption (limit : Option Nat) :
    lengthLimit (limitOption limit) = .ok (limit.map Int.ofNat) := by
  cases limit <;> rfl

theorem base_fresh (reserved : List String) (suffix : String) (limit : Option Nat)
    (taken : List String) (name : String) :
    { fresh reserved suffix limit with taken }.base (limit.map Int.ofNat) name =
      .ok (baseFor reserved suffix limit name) := by
  simp only [Namespace.base, fresh, truncate_eq, List.contains_iff_mem, baseFor]
  split <;> rfl

theorem found_eq_some_iff (ns : Namespace) :
    (if ns.isFree base then some base
      else ns.firstNumbered (limit.map Int.ofNat) base ns.tries 2) = some id ↔
      FirstFree limit (fun id => id ∉ ns.taken ∧ id ∉ ns.reserved) base id := by
  simp only [← isFree_iff]
  by_cases hbase : ns.isFree base = true
  · rw [if_pos hbase, Option.some.injEq]
    constructor
    · rintro rfl
      exact .base hbase
    · rintro (_ | hnot)
      · rfl
      · exact absurd hbase hnot
  · rw [if_neg hbase, firstNumbered_eq_some_iff]
    constructor
    · rintro ⟨k, hk, -, hfits, hfree, rfl, hleast⟩
      exact .numbered hbase hk hfits hfree fun m hm hm' => by simp [hleast m hm hm']
    · rintro (hfree | ⟨-, hn, hfits, hfree, hleast⟩)
      · exact absurd hfree hbase
      · -- Within the tries some candidate is free, so the first free one is among them.
        obtain ⟨k, hk, hk', hfree'⟩ := exists_isFree_lt ns limit base 2
        refine ⟨_, hn, ?_, hfits, hfree, rfl, fun m hm hm' => by simpa using hleast m hm hm'⟩
        by_contra hlate
        exact hleast k hk (by omega) hfree'

section

variable {reserved taken : List String} {suffix : String}

/-- A claim takes the first free candidate. -/
theorem claim_of_firstFree (path : Option String)
    (h : FirstFree limit (fun id => id ∉ taken ∧ id ∉ reserved)
      (baseFor reserved suffix limit name) id) :
    { fresh reserved suffix limit with taken }.claim name path =
      .ok (id, { fresh reserved suffix limit with taken := id :: taken }) := by
  have hfound := (found_eq_some_iff { fresh reserved suffix limit with taken }).2 h
  rw [claim, bind_eq_ok]
  refine ⟨_, lengthLimit_limitOption limit, bind_eq_ok.2 ⟨_, base_fresh .., ?_⟩⟩
  rw [hfound]
  rfl

/-- Without a free candidate a claim fails. -/
theorem claim_of_not_firstFree (path : Option String)
    (h : ∀ id, ¬FirstFree limit (fun id => id ∉ taken ∧ id ∉ reserved)
      (baseFor reserved suffix limit name) id) :
    { fresh reserved suffix limit with taken }.claim name path =
      .error (.report ⟨.exhausted (baseFor reserved suffix limit name) (limitOption limit),
        { path := path }⟩) := by
  have hnone : ∀ id, _ ≠ some id := fun id hid =>
    h id ((found_eq_some_iff { fresh reserved suffix limit with taken }).1 hid)
  rw [claim, bind_eq_error]
  refine .inr ⟨_, lengthLimit_limitOption limit, bind_eq_error.2 (.inr ⟨_, base_fresh .., ?_⟩)⟩
  rw [Option.eq_none_iff_forall_ne_some.2 hnone]
  rfl

end

/-- Without a limit some candidate is free. -/
theorem exists_firstFree (ns : Namespace) (base : String) :
    ∃ id, FirstFree none (fun id => id ∉ ns.taken ∧ id ∉ ns.reserved) base id := by
  obtain ⟨k, hk, -, hfree⟩ := exists_isFree_lt ns none base 2
  exact exists_firstFree_iff.2 (.inr ⟨k, hk, by simp [Fits], isFree_iff.1 hfree⟩)

/-! ## Runs -/

/-- What becomes of names for which identifiers are claimed one after the other, whether a claim
fails or not. -/
def attempts (ns : Namespace) : List (String × Option String) → List (Except Failure String)
  | [] => []
  | (name, path) :: rest =>
    match ns.claim name path with
    | .ok (id, ns) => .ok id :: ns.attempts rest
    | .error f => .error f :: ns.attempts rest

variable {path : Option String}

theorem attempts_cons_ok {rest : List (String × Option String)} {ns' : Namespace}
    (h : ns.claim name path = .ok (id, ns')) :
    ns.attempts ((name, path) :: rest) = .ok id :: ns'.attempts rest := by
  rw [attempts, h]

theorem attempts_cons_error {rest : List (String × Option String)} {f : Failure}
    (h : ns.claim name path = .error f) :
    ns.attempts ((name, path) :: rest) = .error f :: ns.attempts rest := by
  rw [attempts, h]

/-- A run goes on with what its first part has taken, which is what was handed out. -/
theorem exists_attempts_append (ns : Namespace) (before : List (String × Option String)) :
    ∃ taken, (∀ id, id ∈ taken ↔ id ∈ ns.taken ∨ .ok id ∈ ns.attempts before) ∧
      ∀ after, ns.attempts (before ++ after) =
        ns.attempts before ++ { ns with taken }.attempts after := by
  induction before generalizing ns with
  | nil => exact ⟨ns.taken, by simp [attempts], fun after => rfl⟩
  | cons c rest ih =>
    obtain ⟨name, path⟩ := c
    cases hclaim : ns.claim name path with
    | ok r =>
      obtain ⟨id, ns'⟩ := r
      obtain ⟨-, rfl, -⟩ := claim_spec hclaim
      obtain ⟨taken, hmem, happend⟩ := ih { ns with taken := id :: ns.taken }
      refine ⟨taken, fun id' => ?_, fun after => ?_⟩
      · rw [hmem, attempts_cons_ok hclaim, List.mem_cons, List.mem_cons, Except.ok.injEq]
        tauto
      · rw [List.cons_append, attempts_cons_ok hclaim, attempts_cons_ok hclaim, happend]
        rfl
    | error f =>
      obtain ⟨taken, hmem, happend⟩ := ih ns
      refine ⟨taken, fun id' => ?_, fun after => ?_⟩
      · rw [hmem, attempts_cons_error hclaim, List.mem_cons]
        simp
      · rw [List.cons_append, attempts_cons_error hclaim, attempts_cons_error hclaim, happend]
        rfl

/-- An identifier is neither reserved nor among those handed out. -/
def Available (reserved : List String) (answers : List (Except Failure String)) (id : String) :
    Prop :=
  id ∉ reserved ∧ .ok id ∉ answers

/-- What every claim of a run gives.  It gives the first available one of the candidates for the
name.  Without a limit it always gives one; with a limit it fails just when the base and all forms
with shorter numbers are unavailable, and what it gives keeps to the limit.  If it fails, the rest
of the run is what it would have been without the claim. -/
theorem attempts_spec (reserved : List String) (suffix : String) (limit : Option Nat)
    (before after : List (String × Option String)) (name : String) (path : Option String) :
    ∃ result rest,
      (fresh reserved suffix limit).attempts (before ++ (name, path) :: after) =
        (fresh reserved suffix limit).attempts before ++ result :: rest ∧
      (∀ id, result = .ok id ↔
        FirstFree limit (Available reserved ((fresh reserved suffix limit).attempts before))
          (baseFor reserved suffix limit name) id) ∧
      (limit = none → ∃ id, result = .ok id) ∧
      (∀ l, limit = some l →
        ((∃ f, result = .error f) ↔
          ¬Available reserved ((fresh reserved suffix limit).attempts before)
              (baseFor reserved suffix limit name) ∧
            ∀ n, 2 ≤ n → (toString n).length < l →
              ¬Available reserved ((fresh reserved suffix limit).attempts before)
                (candidate limit (baseFor reserved suffix limit name) n)) ∧
        ∀ id, result = .ok id → id.length ≤ l) ∧
      ∀ f, result = .error f →
        f = .report ⟨.exhausted (baseFor reserved suffix limit name) (limitOption limit),
          { path := path }⟩ ∧
        (fresh reserved suffix limit).attempts (before ++ after) =
          (fresh reserved suffix limit).attempts before ++ rest := by
  obtain ⟨taken, hmem, happend⟩ := exists_attempts_append (fresh reserved suffix limit) before
  generalize (fresh reserved suffix limit).attempts before = answers at hmem happend ⊢
  have hfree : (fun id => id ∉ taken ∧ id ∉ reserved) = Available reserved answers := by
    funext id
    rw [Available, hmem id, and_comm]
    simp [fresh]
  by_cases hsome : ∃ id, FirstFree limit (Available reserved answers)
      (baseFor reserved suffix limit name) id
  · obtain ⟨id, hid⟩ := hsome
    have hclaim := claim_of_firstFree path (hfree ▸ hid)
    refine ⟨.ok id, _, (happend _).trans (by rw [attempts_cons_ok hclaim]), fun id' => ?_,
      fun _ => ⟨id, rfl⟩, ?_, by simp⟩
    · rw [Except.ok.injEq]
      exact ⟨fun heq => heq ▸ hid, fun h => hid.unique h⟩
    · rintro l rfl
      rw [← not_exists_firstFree_iff]
      refine ⟨by simpa using Exists.intro id hid, ?_⟩
      rintro _ ⟨⟩
      exact hid.length_le length_baseFor_le
  · have hclaim := claim_of_not_firstFree path (hfree ▸ not_exists.1 hsome)
    refine ⟨.error _, _, (happend _).trans (by rw [attempts_cons_error hclaim]), fun id => ?_, ?_,
      ?_, ?_⟩
    · simpa using not_exists.1 hsome id
    · rintro rfl
      have hfirst := exists_firstFree { fresh reserved suffix none with taken }
        (baseFor reserved suffix none name)
      exact absurd (hfree ▸ hfirst) hsome
    · rintro l rfl
      rw [← not_exists_firstFree_iff]
      exact ⟨by simpa using not_exists.1 hsome, by simp⟩
    · rintro f ⟨⟩
      exact ⟨rfl, happend after⟩

-- The suffix is cut off again, and the second name has to make do with another number.
example : ((fresh ["ab"] "_" (some 2)).attempts [("abc", none), ("abd", none)]).map
    Except.toOption = [some "a2", some "a3"] := by
  decide +kernel

end Namespace

end Typegen.Naming
