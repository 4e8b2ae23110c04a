import Typegen.Proofs.Grammar
import Typegen.Proofs.Spelled

/-!
# Objects in the order of their closing braces

`Closes` finds the objects that are closed in a text, inner ones first, also when the text is
misspelled behind their closing braces.  A reader that refuses repeated keys stops at the first of
these objects that repeats one; apart from that it goes along with every reader that leaves objects
without repeated keys alone (`comparesAt`).
-/

namespace Typegen.Json

/-- What can be read: a value, or the entries of a container up to its closing mark. -/
inductive Phase where
  | value
  | entries (c : Container)

/-- What a part is read as. -/
def Part.phase : Part → Phase
  | .value _ => .value
  | .items _ => .entries .array
  | .members _ => .entries .object

/-- Where the value of the first entry of a container begins. -/
inductive Entry : Container → List Char → List Char → Prop
  | item (cs : List Char) : Entry .array cs cs
  | member {cs inside : List Char} {key : List Piece} (hkey : SpellsKey cs key inside) :
      Entry .object cs inside

/-- An object with the given members is closed in a text, and the given rest comes behind its
closing brace.  Everything up to that brace is spelled correctly; what comes behind need not be. -/
inductive Closes : Phase → List Char → List (List Piece × Raw) → List Char → Prop
  | self {cs rest : List Char} {ms : List (List Piece × Raw)}
      (h : Spells cs (.value (.object ms)) rest) : Closes .value cs ms rest
  | inArray {cs rest : List Char} {ms : List (List Piece × Raw)}
      (h : Closes (.entries .array) (skipSpaces cs) ms rest) : Closes .value ('[' :: cs) ms rest
  | inObject {cs rest : List Char} {ms : List (List Piece × Raw)}
      (h : Closes (.entries .object) (skipSpaces cs) ms rest) : Closes .value ('\x7b' :: cs) ms rest
  | first {c : Container} {cs inside rest : List Char} {ms : List (List Piece × Raw)}
      (hentry : Entry c cs inside) (h : Closes .value inside ms rest) :
      Closes (.entries c) cs ms rest
  | later {c : Container} {cs inside left more rest : List Char} {v : Raw}
      {ms : List (List Piece × Raw)} (hentry : Entry c cs inside)
      (hv : Spells inside (.value v) left) (hcomma : skipSpaces left = ',' :: more)
      (h : Closes (.entries c) (skipSpaces more) ms rest) : Closes (.entries c) cs ms rest

/-! ## The order in which objects are closed -/

section

variable {c : Container} {phase : Phase} {cs inside inside' left more rest r r' : List Char}
  {ms ms' : List (List Piece × Raw)}

theorem Entry.unique (h : Entry c cs inside) (h' : Entry c cs inside') :
    inside = inside' := by
  cases h with
  | item => cases h'; rfl
  | member hkey =>
    cases h' with
    | member hkey' => exact (hkey.unique hkey').2

theorem Entry.length_le (h : Entry c cs inside) : inside.length ≤ cs.length := by
  cases h with
  | item => exact Nat.le_refl _
  | member hkey => exact Nat.le_of_lt hkey.length_lt

/-- A container ends behind its first entry, or it goes on behind a comma. -/
theorem Spells.entry {part : Part} (h : Spells cs part rest) (hpart : part.phase = .entries c)
    (hentry : Entry c cs inside) :
    ∃ v left, Spells inside (.value v) left ∧
      (skipSpaces left = c.closing :: rest ∨
        ∃ more others, skipSpaces left = ',' :: more ∧ Spells (skipSpaces more) others rest ∧
          others.phase = .entries c) := by
  cases h with
  | lastItem hv hclose =>
    cases hpart
    cases hentry
    exact ⟨_, _, hv, .inl hclose⟩
  | item hv hcomma hvs =>
    cases hpart
    cases hentry
    exact ⟨_, _, hv, .inr ⟨_, _, hcomma, hvs, rfl⟩⟩
  | lastMember hkey hv hclose =>
    cases hpart
    rw [(Entry.member hkey).unique hentry] at hv
    exact ⟨_, _, hv, .inl hclose⟩
  | member hkey hv hcomma hms =>
    cases hpart
    rw [(Entry.member hkey).unique hentry] at hv
    exact ⟨_, _, hv, .inr ⟨_, _, hcomma, hms, rfl⟩⟩
  | _ => cases hpart

theorem Closes.length_lt (h : Closes phase cs ms r) : r.length < cs.length := by
  induction h with
  | self h => exact h.length_lt
  | @inArray cs _ _ _ ih | @inObject cs _ _ _ ih =>
    exact Nat.lt_succ_of_lt (Nat.lt_of_lt_of_le ih (length_skipSpaces_le cs))
  | first hentry _ ih => exact Nat.lt_of_lt_of_le ih hentry.length_le
  | @later _ _ _ _ more _ _ _ hentry hv hcomma _ ih =>
    have hinside := hentry.length_le
    have hlength := hv.length_lt
    have hmore := length_lt_of_skipSpaces hcomma
    have hskip := length_skipSpaces_le more
    omega

/-- What comes behind a comma is shorter than what comes in front of it. -/
theorem length_lt_of_comma (h : r.length < (skipSpaces more).length)
    (hcomma : skipSpaces left = ',' :: more) : r.length < left.length := by
  have hmore := length_lt_of_skipSpaces hcomma
  have hskip := length_skipSpaces_le more
  omega

theorem Closes.ne_bracket (h : Closes (.entries .array) cs ms r) : cs ≠ ']' :: more := by
  cases h with
  | first hentry h =>
    cases hentry
    cases h with
    | self h => exact h.ne_bracket
    | inArray | inObject => simp
  | later hentry hv =>
    cases hentry
    exact hv.ne_bracket

theorem Closes.ne_brace (h : Closes (.entries .object) cs ms r) : cs ≠ '\x7d' :: more := by
  cases h with
  | first hentry | later hentry =>
    cases hentry with
    | member hkey => exact hkey.ne_brace

/-- A value ends where the last object in it is closed or later, and a container ends later. -/
theorem Closes.ends {part : Part} (h : Closes phase cs ms r) (hpart : Spells cs part rest)
    (hphase : part.phase = phase) :
    rest.length ≤ r.length ∧ (phase ≠ .value → rest.length < r.length) := by
  induction h generalizing part rest with
  | self h =>
    cases part with
    | value v =>
      obtain ⟨-, rfl⟩ := h.value_unique hpart
      exact ⟨Nat.le_refl _, fun hne => absurd rfl hne⟩
    | _ => cases hphase
  | inArray h ih =>
    refine ⟨?_, fun hne => absurd rfl hne⟩
    cases hpart with
    | atom hatom => exact absurd hatom (not_readAtom (by simp))
    | emptyArray hempty => exact absurd hempty h.ne_bracket
    | array hitems => exact (ih hitems rfl).1
    | _ => cases hphase
  | inObject h ih =>
    refine ⟨?_, fun hne => absurd rfl hne⟩
    cases hpart with
    | atom hatom => exact absurd hatom (not_readAtom (by simp))
    | emptyObject hempty => exact absurd hempty h.ne_brace
    | object hmembers => exact (ih hmembers rfl).1
    | _ => cases hphase
  | first hentry h ih =>
    obtain ⟨v, left, hv, hclose | ⟨more, others, hcomma, hothers, -⟩⟩ := hpart.entry hphase hentry
    · have hend := (ih hv rfl).1
      have hlength := length_lt_of_skipSpaces hclose
      exact ⟨by omega, fun _ => by omega⟩
    · have hend := (ih hv rfl).1
      have hlength := length_lt_of_comma hothers.length_lt hcomma
      exact ⟨by omega, fun _ => by omega⟩
  | @later c _ _ _ _ _ _ _ hentry hv hcomma _ ih =>
    obtain ⟨v', left', hv', hrest⟩ := hpart.entry hphase hentry
    obtain ⟨-, rfl⟩ := hv.value_unique hv'
    rw [hcomma] at hrest
    rcases hrest with hclose | ⟨more', others, hcomma', hothers, hsame⟩
    · exact absurd (List.cons.inj hclose).1 (by cases c <;> decide)
    · cases hcomma'
      exact ih hothers hsame

/-- No two objects are closed at the same place. -/
theorem Closes.unique (h : Closes phase cs ms r) (h' : Closes phase cs ms' r')
    (hlength : r.length = r'.length) : ms = ms' := by
  have hself : ∀ {cs ms ms' r r'}, Spells ('\x7b' :: cs) (.value (.object ms)) r →
      Closes (.entries .object) (skipSpaces cs) ms' r' → r.length ≠ r'.length := by
    intro cs ms ms' r r' h h'
    cases h with
    | atom hatom => exact absurd hatom (not_readAtom (by simp))
    | emptyObject hempty => exact absurd hempty h'.ne_brace
    | object hmembers => exact Nat.ne_of_lt ((h'.ends hmembers rfl).2 (by simp))
  have hlater : ∀ {phase v inside left more ms ms' r r'}, Closes .value inside ms r →
      Spells inside (.value v) left → skipSpaces left = ',' :: more →
      Closes phase (skipSpaces more) ms' r' → r.length ≠ r'.length := by
    intro phase v inside left more ms ms' r r' h hv hcomma h'
    have hbefore := (h.ends hv rfl).1
    have hbehind := length_lt_of_comma h'.length_lt hcomma
    omega
  induction h with
  | self h =>
    cases h' with
    | self h' => exact Json.object.inj (h.value_unique h').1
    | inArray h' =>
      cases h with
      | atom hatom => exact absurd hatom (not_readAtom (by simp))
    | inObject h' => exact absurd hlength (hself h h')
  | inArray h ih =>
    cases h' with
    | self h' =>
      cases h' with
      | atom hatom => exact absurd hatom (not_readAtom (by simp))
    | inArray h' => exact ih h' hlength
  | inObject h ih =>
    cases h' with
    | self h' => exact absurd hlength.symm (hself h' h)
    | inObject h' => exact ih h' hlength
  | first hentry h ih =>
    cases h' with
    | first hentry' h' =>
      obtain rfl := hentry.unique hentry'
      exact ih h' hlength
    | later hentry' hv hcomma h' =>
      obtain rfl := hentry.unique hentry'
      exact absurd hlength (hlater h hv hcomma h')
  | later hentry hv hcomma h ih =>
    cases h' with
    | first hentry' h' =>
      obtain rfl := hentry.unique hentry'
      exact absurd hlength.symm (hlater h' hv hcomma h)
    | later hentry' hv' hcomma' h' =>
      obtain rfl := hentry.unique hentry'
      obtain ⟨-, rfl⟩ := hv.value_unique hv'
      rw [hcomma] at hcomma'
      cases hcomma'
      exact ih h' hlength

end

/-! ## Repeated keys -/

section

variable {κ : Type} {ks : List κ} {key : κ}

/-- The first key of a list that occurs a second time. -/
def FirstRepeat (ks : List κ) (key : κ) : Prop :=
  ∃ before after, ks = before ++ key :: after ∧ before.Nodup ∧ key ∈ before

theorem FirstRepeat.not_nodup (h : FirstRepeat ks key) : ¬ ks.Nodup := by
  obtain ⟨before, after, rfl, -, hmem⟩ := h
  intro hnodup
  exact (List.nodup_append.1 hnodup).2.2 key hmem key List.mem_cons_self rfl

theorem FirstRepeat.unique {key' : κ} (h : FirstRepeat ks key) (h' : FirstRepeat ks key') :
    key = key' := by
  -- A front that ends behind the first repeated key has a repetition.
  have hshort : ∀ {before before' after after' : List κ} {key key' : κ},
      before ++ key :: after = before' ++ key' :: after' → before'.Nodup → key ∈ before →
        ¬ before.length < before'.length := by
    intro before before' after after' key key' heq hnodup hmem hlength
    have hfront : before ++ [key] <+: before ++ key :: after := ⟨after, by simp⟩
    have hfront' : before' <+: before ++ key :: after := heq ▸ List.prefix_append before' _
    have hstart : before ++ [key] <+: before' := by
      refine List.prefix_of_prefix_length_le hfront hfront' ?_
      simp only [List.length_append, List.length_singleton]
      omega
    have hrepeat := hnodup.sublist hstart.sublist
    exact (List.nodup_append.1 hrepeat).2.2 key hmem key List.mem_cons_self rfl
  obtain ⟨before, after, rfl, hnodup, hmem⟩ := h
  obtain ⟨before', after', heq, hnodup', hmem'⟩ := h'
  have hlength : before.length = before'.length := by
    have hle := hshort heq hnodup' hmem
    have hge := hshort heq.symm hnodup hmem'
    omega
  exact (List.cons.inj (List.append_inj heq hlength).2).1

theorem firstRepeat?_eq_some [DecidableEq κ] {seen : List κ} (h : firstRepeat? seen ks = some key) :
    ∃ before after, ks = before ++ key :: after ∧
      before.Nodup ∧ (∀ k ∈ before, k ∉ seen) ∧ (key ∈ before ∨ key ∈ seen) := by
  induction ks generalizing seen with
  | nil => cases h
  | cons k ks ih =>
    rw [firstRepeat?] at h
    split_ifs at h with hseen
    · cases h
      exact ⟨[], ks, rfl, .nil, by simp, .inr (List.contains_iff_mem.1 hseen)⟩
    · obtain ⟨before, after, rfl, hnodup, hnew, hkey⟩ := ih h
      refine ⟨k :: before, after, rfl, ?_, ?_, ?_⟩
      · exact List.nodup_cons.2 ⟨fun hk => hnew k hk List.mem_cons_self, hnodup⟩
      · refine List.forall_mem_cons.2 ⟨fun hk => hseen (List.contains_iff_mem.2 hk), ?_⟩
        exact fun x hx hmem => hnew x hx (List.mem_cons_of_mem k hmem)
      · rcases hkey with hkey | hkey
        · exact .inl (List.mem_cons_of_mem k hkey)
        · rcases List.mem_cons.1 hkey with rfl | hkey
          · exact .inl List.mem_cons_self
          · exact .inr hkey

end

theorem noRepeats_cases (ms : List (List Piece × Raw)) :
    ((keys ms).Nodup ∧ noRepeats ms = .ok (.object ms)) ∨
      ∃ key, FirstRepeat (keys ms) key ∧ noRepeats ms = .error (.repeatedKey key) := by
  unfold noRepeats
  split
  · next key hkey =>
    obtain ⟨before, after, heq, hnodup, -, hmem⟩ := firstRepeat?_eq_some hkey
    exact .inr ⟨key, ⟨before, after, heq, hnodup, hmem.resolve_right (by simp)⟩, rfl⟩
  · next hnone => exact .inl ⟨(Schema.firstRepeat?_eq_none_iff.1 hnone).1, rfl⟩

/-- No object that is closed in a text repeats a key. -/
def Clean (phase : Phase) (cs : List Char) : Prop :=
  ∀ ms rest, Closes phase cs ms rest → (keys ms).Nodup

/-- Of the objects that are closed in a text, the first one that repeats a key repeats this key
first. -/
def Repeats (phase : Phase) (cs : List Char) (key : List Piece) : Prop :=
  ∃ ms rest, Closes phase cs ms rest ∧ FirstRepeat (keys ms) key ∧
    ∀ ms' rest', Closes phase cs ms' rest' → rest.length < rest'.length → (keys ms').Nodup

section

variable {c : Container} {phase : Phase} {cs inside left more : List Char} {v : Raw} {key : List Piece}

theorem Repeats.not_clean (h : Repeats phase cs key) : ¬ Clean phase cs := by
  obtain ⟨ms, rest, hcloses, hkey, -⟩ := h
  exact fun hclean => hkey.not_nodup (hclean ms rest hcloses)

variable {ms : List (List Piece × Raw)} {r : List Char}

theorem closes_array_iff :
    Closes .value ('[' :: cs) ms r ↔ Closes (.entries .array) (skipSpaces cs) ms r := by
  refine ⟨fun h => ?_, .inArray⟩
  cases h with
  | self h =>
    cases h with
    | atom hatom => exact absurd hatom (not_readAtom (by simp))
  | inArray h => exact h

theorem closes_object_iff :
    Closes .value ('\x7b' :: cs) ms r ↔
      Spells ('\x7b' :: cs) (.value (.object ms)) r ∨
        Closes (.entries .object) (skipSpaces cs) ms r := by
  constructor
  · intro h
    cases h with
    | self h => exact .inl h
    | inObject h => exact .inr h
  · rintro (h | h)
    · exact .self h
    · exact .inObject h

/-- Objects are closed in the first entry of a container, or behind the comma that follows it. -/
theorem Closes.entry (h : Closes (.entries c) cs ms r) (hentry : Entry c cs inside) :
    Closes .value inside ms r ∨
      ∃ v left more, Spells inside (.value v) left ∧ skipSpaces left = ',' :: more ∧
        Closes (.entries c) (skipSpaces more) ms r := by
  cases h with
  | first hentry' h =>
    obtain rfl := hentry.unique hentry'
    exact .inl h
  | later hentry' hv hcomma h =>
    obtain rfl := hentry.unique hentry'
    exact .inr ⟨_, _, _, hv, hcomma, h⟩

theorem Clean.stops (hclean : Clean .value inside) (hentry : Entry c cs inside)
    (hstop : ∀ v left more, Spells inside (.value v) left → skipSpaces left ≠ ',' :: more) :
    Clean (.entries c) cs := by
  intro ms r h
  rcases h.entry hentry with h | ⟨v, left, more, hv, hcomma, -⟩
  · exact hclean ms r h
  · exact absurd hcomma (hstop v left more hv)

theorem Clean.goesOn (hclean : Clean .value inside) (hentry : Entry c cs inside)
    (hv : Spells inside (.value v) left) (hcomma : skipSpaces left = ',' :: more)
    (hrest : Clean (.entries c) (skipSpaces more)) : Clean (.entries c) cs := by
  intro ms r h
  rcases h.entry hentry with h | ⟨v', left', more', hv', hcomma', h⟩
  · exact hclean ms r h
  · obtain ⟨-, rfl⟩ := hv.value_unique hv'
    rw [hcomma] at hcomma'
    cases hcomma'
    exact hrest ms r h

theorem Repeats.first (h : Repeats .value inside key) (hentry : Entry c cs inside) :
    Repeats (.entries c) cs key := by
  obtain ⟨ms, r, hcloses, hkey, hearlier⟩ := h
  refine ⟨ms, r, .first hentry hcloses, hkey, fun ms' r' h' hlength => ?_⟩
  rcases h'.entry hentry with h' | ⟨v, left, more, hv, hcomma, h'⟩
  · exact hearlier ms' r' h' hlength
  · have hbefore := (hcloses.ends hv rfl).1
    have hbehind := length_lt_of_comma h'.length_lt hcomma
    omega

theorem Repeats.later (h : Repeats (.entries c) (skipSpaces more) key) (hentry : Entry c cs inside)
    (hclean : Clean .value inside) (hv : Spells inside (.value v) left)
    (hcomma : skipSpaces left = ',' :: more) : Repeats (.entries c) cs key := by
  obtain ⟨ms, r, hcloses, hkey, hearlier⟩ := h
  refine ⟨ms, r, .later hentry hv hcomma hcloses, hkey, fun ms' r' h' hlength => ?_⟩
  rcases h'.entry hentry with h' | ⟨v', left', more', hv', hcomma', h'⟩
  · exact hclean ms' r' h'
  · obtain ⟨-, rfl⟩ := hv.value_unique hv'
    rw [hcomma] at hcomma'
    cases hcomma'
    exact hearlier ms' r' h' hlength

theorem Repeats.unique {key' : List Piece} (h : Repeats phase cs key) (h' : Repeats phase cs key') :
    key = key' := by
  obtain ⟨ms, r, hcloses, hkey, hearlier⟩ := h
  obtain ⟨ms', r', hcloses', hkey', hearlier'⟩ := h'
  have hlength : r.length = r'.length := by
    by_contra hne
    rcases Nat.lt_or_gt_of_ne hne with hlt | hgt
    · exact hkey'.not_nodup (hearlier ms' r' hcloses' hlt)
    · exact hkey.not_nodup (hearlier' ms r hcloses hgt)
  obtain rfl := hcloses.unique hcloses' hlength
  exact hkey.unique hkey'

end

/-! ## Reading with repeated keys refused -/

/-- How reading a part comes out when repeated keys are refused, and when they are dealt with in
another way. -/
inductive Compares {α : Type} (part : α → Part) (phase : Phase) (cs : List Char) :
    Except Fault (α × List Char) → Except Fault (α × List Char) → Prop
  | read {a : α} {rest : List Char} (hspells : Spells cs (part a) rest)
      (hclean : Clean phase cs) : Compares part phase cs (.ok (a, rest)) (.ok (a, rest))
  | repeated {key : List Piece} (plain : Except Fault (α × List Char)) (h : Repeats phase cs key) :
      Compares part phase cs (.error (.repeatedKey key)) plain
  | malformed (problem : Problem) (left : Nat) (hnone : ∀ a rest, ¬ Spells cs (part a) rest)
      (hclean : Clean phase cs) :
      Compares part phase cs (.error (.malformed problem left)) (.error (.malformed problem left))

/-- A closing that leaves objects alone in which no key is repeated. -/
def Closing.Lenient (close : Closing) : Prop :=
  ∀ ms, (keys ms).Nodup → close ms = .ok (.object ms)

/-- Readers with so much fuel differ only where a key is repeated. -/
structure ComparesAt (close : Closing) (fuel : Nat) : Prop where
  value : ∀ cs : List Char, 2 * cs.length + 1 ≤ fuel →
    Compares .value .value cs (readValue noRepeats fuel cs) (readValue close fuel cs)
  items : ∀ cs : List Char, 2 * cs.length + 2 ≤ fuel →
    Compares .items (.entries .array) cs (readItems noRepeats fuel cs) (readItems close fuel cs)
  members : ∀ cs : List Char, 2 * cs.length + 2 ≤ fuel →
    Compares .members (.entries .object) cs (readMembers noRepeats fuel cs)
      (readMembers close fuel cs)

section

variable {close : Closing} {fuel : Nat} {cs : List Char}

theorem compares_atom (hstring : ∀ more, cs ≠ '"' :: more) (harray : ∀ more, cs ≠ '[' :: more)
    (hobject : ∀ more, cs ≠ '\x7b' :: more) :
    Compares .value .value cs (readAtom cs) (readAtom cs) := by
  have hspells : ∀ v rest, Spells cs (.value v) rest → readAtom cs = .ok (v, rest) := by
    intro v rest h
    cases h with
    | atom h => exact h
    | string => exact absurd rfl (hstring _)
    | emptyArray | array => exact absurd rfl (harray _)
    | emptyObject | object => exact absurd rfl (hobject _)
  have hclean : Clean .value cs := by
    intro ms rest h
    cases h with
    | self h => exact absurd rfl ((atomic_of_readAtom (hspells _ _ h)).ne_object ms)
    | inArray => exact absurd rfl (harray _)
    | inObject => exact absurd rfl (hobject _)
  have htakes := takes_readAtom cs
  generalize hread : readAtom cs = r at htakes
  cases htakes with
  | read => exact .read (.atom hread) hclean
  | malformed problem left =>
    refine .malformed problem left (fun v rest h => ?_) hclean
    rw [hspells v rest h] at hread
    cases hread

theorem compares_string (quoted : List Char) :
    Compares .value .value ('"' :: quoted) (readValue noRepeats (fuel + 1) ('"' :: quoted))
      (readValue close (fuel + 1) ('"' :: quoted)) := by
  have hspells : ∀ v rest, Spells ('"' :: quoted) (.value v) rest →
      ∃ s, v = .string s ∧ readString quoted = .ok (s, rest) := by
    intro v rest h
    cases h with
    | atom h => exact absurd h (not_readAtom (by simp))
    | string h => exact ⟨_, rfl, h⟩
  have hclean : Clean .value ('"' :: quoted) := by
    intro ms rest h
    cases h with
    | self h =>
      obtain ⟨s, hs, -⟩ := hspells _ _ h
      cases hs
  have htakes := takes_readString quoted
  generalize hread : readString quoted = r at htakes
  cases htakes with
  | read =>
    rw [readValue_string hread, readValue_string hread]
    exact .read (.string hread) hclean
  | malformed problem left =>
    have hfails : ∀ close, readValue close (fuel + 1) ('"' :: quoted) =
        .error (.malformed problem left) := by
      intro close
      rw [readValue, hread]
      rfl
    rw [hfails, hfails]
    refine .malformed problem left (fun v rest h => ?_) hclean
    obtain ⟨s, -, hs⟩ := hspells v rest h
    rw [hs] at hread
    cases hread

theorem ComparesAt.array (ih : ComparesAt close fuel) (hfuel : 2 * cs.length + 2 ≤ fuel) :
    Compares .value .value ('[' :: cs) (readValue noRepeats (fuel + 1) ('[' :: cs))
      (readValue close (fuel + 1) ('[' :: cs)) := by
  by_cases hempty : ∃ rest, skipSpaces cs = ']' :: rest
  · obtain ⟨rest, hempty⟩ := hempty
    rw [readValue_emptyArray hempty, readValue_emptyArray hempty]
    refine .read (.emptyArray hempty) fun ms r h => ?_
    exact absurd hempty (closes_array_iff.1 h).ne_bracket
  · have hne : ∀ more, skipSpaces cs ≠ ']' :: more := fun more h => hempty ⟨more, h⟩
    have hskip := length_skipSpaces_le cs
    have hitems := ih.items (skipSpaces cs) (by omega)
    rw [readValue_array hne, readValue_array hne]
    generalize readItems noRepeats fuel (skipSpaces cs) = strict,
      readItems close fuel (skipSpaces cs) = plain at hitems
    cases hitems with
    | read hspells hclean =>
      exact .read (.array hspells) fun ms r h => hclean ms r (closes_array_iff.1 h)
    | repeated plain h =>
      obtain ⟨ms, r, hcloses, hkey, hearlier⟩ := h
      refine .repeated _ ⟨ms, r, .inArray hcloses, hkey, fun ms' r' h' => ?_⟩
      exact hearlier ms' r' (closes_array_iff.1 h')
    | malformed problem left hnone hclean =>
      refine .malformed problem left (fun v rest h => ?_) fun ms r h =>
        hclean ms r (closes_array_iff.1 h)
      cases h with
      | atom hatom => exact not_readAtom (by simp) hatom
      | emptyArray h => exact hne _ h
      | array h => exact hnone _ _ h

theorem ComparesAt.object (ih : ComparesAt close fuel) (hclose : close.Lenient)
    (hfuel : 2 * cs.length + 2 ≤ fuel) :
    Compares .value .value ('\x7b' :: cs) (readValue noRepeats (fuel + 1) ('\x7b' :: cs))
      (readValue close (fuel + 1) ('\x7b' :: cs)) := by
  by_cases hempty : ∃ rest, skipSpaces cs = '\x7d' :: rest
  · obtain ⟨rest, hempty⟩ := hempty
    rw [readValue_emptyObject hempty, readValue_emptyObject hempty, hclose [] .nil]
    refine .read (.emptyObject hempty) fun ms r h => ?_
    rcases closes_object_iff.1 h with h | h
    · have hms := (h.value_unique (.emptyObject hempty)).1
      cases hms
      exact .nil
    · exact absurd hempty h.ne_brace
  · have hne : ∀ more, skipSpaces cs ≠ '\x7d' :: more := fun more h => hempty ⟨more, h⟩
    have hinside : ∀ ms rest, Spells ('\x7b' :: cs) (.value (.object ms)) rest →
        Spells (skipSpaces cs) (.members ms) rest := by
      intro ms rest h
      cases h with
      | atom hatom => exact absurd hatom (not_readAtom (by simp))
      | emptyObject h => exact absurd h (hne _)
      | object h => exact h
    have hskip := length_skipSpaces_le cs
    have hmembers := ih.members (skipSpaces cs) (by omega)
    rw [readValue_object hne, readValue_object hne]
    generalize readMembers noRepeats fuel (skipSpaces cs) = strict,
      readMembers close fuel (skipSpaces cs) = plain at hmembers
    cases hmembers with
    | @read ms rest hspells hclean =>
      rcases noRepeats_cases ms with ⟨hnodup, hok⟩ | ⟨key, hkey, herror⟩
      · simp only [bind, Except.bind, hok, hclose ms hnodup]
        refine .read (.object hspells) fun ms' r h => ?_
        rcases closes_object_iff.1 h with h | h
        · rwa [← (hspells.members_unique (hinside ms' r h)).1]
        · exact hclean ms' r h
      · simp only [bind, Except.bind, herror]
        refine .repeated _ ⟨ms, rest, .self (.object hspells), hkey, fun ms' r h hlength => ?_⟩
        rcases closes_object_iff.1 h with h | h
        · rw [(hspells.members_unique (hinside ms' r h)).2] at hlength
          exact absurd hlength (Nat.lt_irrefl _)
        · exact hclean ms' r h
    | repeated plain h =>
      obtain ⟨ms, r, hcloses, hkey, hearlier⟩ := h
      refine .repeated _ ⟨ms, r, .inObject hcloses, hkey, fun ms' r' h hlength => ?_⟩
      rcases closes_object_iff.1 h with h | h
      · have hend := (hcloses.ends (hinside ms' r' h) rfl).1
        omega
      · exact hearlier ms' r' h hlength
    | malformed problem left hnone hclean =>
      refine .malformed problem left (fun v rest h => ?_) fun ms r h => ?_
      · cases h with
        | atom hatom => exact not_readAtom (by simp) hatom
        | emptyObject h => exact hne _ h
        | object h => exact hnone _ _ h
      · rcases closes_object_iff.1 h with h | h
        · exact absurd (hinside ms r h) (hnone ms r)
        · exact hclean ms r h

/-- The readers go through a container in the same way, as long as they do so for the value of its
first entry and for what comes behind the comma. -/
theorem compares_entries {α : Type} {part : α → Part} {c : Container} {inside : List Char}
    (hentry : Entry c cs inside) (hpart : ∀ p : Part, p.phase = .entries c ↔ ∃ a, p = part a)
    {last : Raw → α} {add : Raw → α → α}
    (hlast : ∀ v left rest, Spells inside (.value v) left → skipSpaces left = c.closing :: rest →
      Spells cs (part (last v)) rest)
    (hadd : ∀ v left more a rest, Spells inside (.value v) left → skipSpaces left = ',' :: more →
      Spells (skipSpaces more) (part a) rest → Spells cs (part (add v a)) rest)
    {strict plain : Except Fault (Raw × List Char)}
    (hvalue : Compares .value .value inside strict plain)
    {laterStrict laterPlain : List Char → Except Fault (α × List Char)}
    (hlater : ∀ more : List Char, more.length < inside.length →
      Compares part (.entries c) (skipSpaces more) (laterStrict (skipSpaces more))
        (laterPlain (skipSpaces more))) :
    Compares part (.entries c) cs (strict >>= afterEntry c last add laterStrict)
      (plain >>= afterEntry c last add laterPlain) := by
  have hphase : ∀ a, (part a).phase = .entries c := fun a => (hpart _).2 ⟨a, rfl⟩
  cases hvalue with
  | repeated plain h => exact .repeated _ (h.first hentry)
  | malformed problem left hnone hclean =>
    refine .malformed problem left (fun a rest h => ?_) ?_
    · obtain ⟨v, left, hv, -⟩ := h.entry (hphase a) hentry
      exact hnone v left hv
    · exact hclean.stops hentry fun v left more hv => absurd hv (hnone v left)
  | @read v left hv hclean =>
    rw [ok_bind, ok_bind]
    have hunique : ∀ {v' left'}, Spells inside (.value v') left' → left' = left :=
      fun hv' => (hv'.value_unique hv).2
    by_cases hcomma : ∃ more, skipSpaces left = ',' :: more
    · obtain ⟨more, hcomma⟩ := hcomma
      have hlength := hv.length_lt
      have hmore := length_lt_of_skipSpaces hcomma
      have hrest := hlater more (by omega)
      rw [afterEntry_comma hcomma, afterEntry_comma hcomma]
      generalize laterStrict (skipSpaces more) = strict, laterPlain (skipSpaces more) = plain
        at hrest
      cases hrest with
      | read hspells hrest =>
        exact .read (hadd v left more _ _ hv hcomma hspells) (hclean.goesOn hentry hv hcomma hrest)
      | repeated plain h => exact .repeated _ (h.later hentry hclean hv hcomma)
      | malformed problem left hnone hrest =>
        refine .malformed problem left (fun a rest h => ?_) (hclean.goesOn hentry hv hcomma hrest)
        obtain ⟨v', left', hv', hend⟩ := h.entry (hphase a) hentry
        rw [hunique hv', hcomma] at hend
        rcases hend with hclose | ⟨more', others, heq, hothers, hsame⟩
        · exact absurd (List.cons.inj hclose).1 (by cases c <;> decide)
        · cases heq
          obtain ⟨b, rfl⟩ := (hpart others).1 hsame
          exact hnone b rest hothers
    · have hcomma : ∀ more, skipSpaces left ≠ ',' :: more := fun more h => hcomma ⟨more, h⟩
      have hclean : Clean (.entries c) cs := hclean.stops hentry fun v' left' more hv' =>
        hunique hv' ▸ hcomma more
      by_cases hclose : ∃ rest, skipSpaces left = c.closing :: rest
      · obtain ⟨rest, hclose⟩ := hclose
        rw [afterEntry_closing hclose, afterEntry_closing hclose]
        exact .read (hlast v left rest hv hclose) hclean
      · have hclose : ∀ rest, skipSpaces left ≠ c.closing :: rest := fun rest h => hclose ⟨rest, h⟩
        rw [afterEntry_stuck hclose hcomma, afterEntry_stuck hclose hcomma]
        refine .malformed _ _ (fun a rest h => ?_) hclean
        obtain ⟨v', left', hv', hend⟩ := h.entry (hphase a) hentry
        rw [hunique hv'] at hend
        rcases hend with h | ⟨more, -, h, -⟩
        · exact hclose rest h
        · exact hcomma more h

theorem ComparesAt.items_succ (ih : ComparesAt close fuel) (hfuel : 2 * cs.length + 1 ≤ fuel) :
    Compares .items (.entries .array) cs (readItems noRepeats (fuel + 1) cs)
      (readItems close (fuel + 1) cs) := by
  rw [readItems_eq, readItems_eq]
  refine compares_entries (.item cs) (fun p => ?_) (fun v left rest hv h => .lastItem hv h)
    (fun v left more a rest hv h hvs => .item hv h hvs) (ih.value cs hfuel) fun more hmore => ?_
  · cases p <;> simp [Part.phase]
  · have hskip := length_skipSpaces_le more
    exact ih.items _ (by omega)

theorem ComparesAt.members_succ (ih : ComparesAt close fuel) (hfuel : 2 * cs.length + 1 ≤ fuel) :
    Compares .members (.entries .object) cs (readMembers noRepeats (fuel + 1) cs)
      (readMembers close (fuel + 1) cs) := by
  by_cases hkey : ∃ key inside, SpellsKey cs key inside
  · obtain ⟨key, inside, hkey⟩ := hkey
    have hlength := hkey.length_lt
    rw [readMembers_eq hkey, readMembers_eq hkey]
    refine compares_entries (.member hkey) (fun p => ?_)
      (fun v left rest hv h => .lastMember hkey hv h)
      (fun v left more a rest hv h hms => .member hkey hv h hms) (ih.value inside (by omega))
      fun more hmore => ?_
    · cases p <;> simp [Part.phase]
    · have hskip := length_skipSpaces_le more
      exact ih.members _ (by omega)
  · have hkey : ∀ key inside, ¬ SpellsKey cs key inside := fun key inside h => hkey ⟨key, inside, h⟩
    obtain ⟨problem, left, hfails⟩ := readMembers_keyless hkey fuel
    rw [hfails, hfails]
    refine .malformed problem left (fun ms rest h => ?_) fun ms rest h => ?_
    · cases h with
      | lastMember h | member h => exact hkey _ _ h
    · cases h with
      | first hentry | later hentry =>
        cases hentry with
        | member h => exact absurd h (hkey _ _)

theorem ComparesAt.value_succ (ih : ComparesAt close fuel) (hclose : close.Lenient)
    (hfuel : 2 * cs.length ≤ fuel) :
    Compares .value .value cs (readValue noRepeats (fuel + 1) cs)
      (readValue close (fuel + 1) cs) := by
  by_cases hstring : ∃ more, cs = '"' :: more
  · obtain ⟨quoted, rfl⟩ := hstring
    exact compares_string quoted
  by_cases harray : ∃ more, cs = '[' :: more
  · obtain ⟨inside, rfl⟩ := harray
    exact ih.array hfuel
  by_cases hobject : ∃ more, cs = '\x7b' :: more
  · obtain ⟨inside, rfl⟩ := hobject
    exact ih.object hclose hfuel
  have hstring : ∀ more, cs ≠ '"' :: more := fun more h => hstring ⟨more, h⟩
  have harray : ∀ more, cs ≠ '[' :: more := fun more h => harray ⟨more, h⟩
  have hobject : ∀ more, cs ≠ '\x7b' :: more := fun more h => hobject ⟨more, h⟩
  have hatom : ∀ close, readValue close (fuel + 1) cs = readAtom cs := by
    intro close
    unfold readValue
    split
    · exact absurd rfl (hstring _)
    · exact absurd rfl (harray _)
    · exact absurd rfl (hobject _)
    · rfl
  rw [hatom, hatom]
  exact compares_atom hstring harray hobject

theorem comparesAt (hclose : close.Lenient) (fuel : Nat) : ComparesAt close fuel := by
  induction fuel with
  | zero => exact ⟨by omega, by omega, by omega⟩
  | succ fuel ih =>
    exact ⟨fun cs hfuel => ih.value_succ hclose (by omega),
      fun cs hfuel => ih.items_succ (by omega), fun cs hfuel => ih.members_succ (by omega)⟩

end

end Typegen.Json
