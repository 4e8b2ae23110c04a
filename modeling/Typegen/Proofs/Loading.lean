import Typegen.Document
import Typegen.Proofs.Closings

/-!
# Loaded documents

A schema document is read with repeated keys refused each time an object is closed.  So loading a
text gives what parsing it gives, unless an object that is closed in it repeats a key: then it fails
with the first such key, also when the text is misspelled further on (`load_refuses_repeats`).  An
integer that is too long stops both, and is not reported as a fault of a schema
(`load_longInteger`).  In a document that was loaded no object repeats a key, at any depth.
-/

namespace Typegen.Json

/-! ## Parsing -/

theorem mergeMembers_of_nodup {ms : List (List Piece × Raw)} (h : (keys ms).Nodup) :
    mergeMembers ms = ms :=
  foldl_setMember [] ms h

theorem lenient_lastWins : Closing.Lenient lastWins := fun ms h => by
  rw [lastWins, mergeMembers_of_nodup h]

/-! ## Whole texts -/

/-- The values of a part repeat no key. -/
def Part.Distinct : Part → Prop
  | .value v => v.Distinct
  | .items vs => ∀ v ∈ vs, v.Distinct
  | .members ms => ∀ m ∈ ms, m.2.Distinct

theorem Atomic.distinct {v : Raw} (h : Atomic v) : v.Distinct := by
  cases h with
  | null => exact .null
  | bool b => exact .bool b
  | int n => exact .int n
  | float x => exact .float x

theorem Spells.distinct {cs rest : List Char} {part : Part} (h : Spells cs part rest)
    (hclean : Clean part.phase cs) : part.Distinct := by
  induction h with
  | atom h => exact (atomic_of_readAtom h).distinct
  | string => exact .string _
  | emptyArray => exact .array (by simp)
  | array _ ih => exact .array (ih fun ms r h => hclean ms r (.inArray h))
  | emptyObject => exact .object .nil (by simp)
  | object hms ih =>
    exact .object (hclean _ _ (.self (.object hms))) (ih fun ms r h => hclean ms r (.inObject h))
  | lastItem _ _ ih =>
    exact List.forall_mem_singleton.2 (ih fun ms r h => hclean ms r (.first (.item _) h))
  | item hv hcomma _ ihv ihvs =>
    exact List.forall_mem_cons.2 ⟨ihv fun ms r h => hclean ms r (.first (.item _) h),
      ihvs fun ms r h => hclean ms r (.later (.item _) hv hcomma h)⟩
  | lastMember hkey _ _ ih =>
    exact List.forall_mem_singleton.2 (ih fun ms r h => hclean ms r (.first (.member hkey) h))
  | member hkey hv hcomma _ ihv ihms =>
    exact List.forall_mem_cons.2 ⟨ihv fun ms r h => hclean ms r (.first (.member hkey) h),
      ihms fun ms r h => hclean ms r (.later (.member hkey) hv hcomma h)⟩

/-- How reading a whole text comes out when repeated keys are refused, and when they are dealt with
in another way. -/
inductive ComparesWhole (cs : List Char) : Except Fault Raw → Except Fault Raw → Prop
  | read {v : Raw} (hdistinct : v.Distinct) (hclean : Clean .value cs) :
      ComparesWhole cs (.ok v) (.ok v)
  | repeated {key : List Piece} (plain : Except Fault Raw) (h : Repeats .value cs key) :
      ComparesWhole cs (.error (.repeatedKey key)) plain
  | malformed (problem : Problem) (left : Nat) (hclean : Clean .value cs) :
      ComparesWhole cs (.error (.malformed problem left)) (.error (.malformed problem left))

theorem comparesWhole_readRaw {close : Closing} (hclose : close.Lenient) (cs : List Char) :
    ComparesWhole (skipSpaces cs) (readRaw noRepeats cs) (readRaw close cs) := by
  unfold readRaw
  have hskip := length_skipSpaces_le cs
  have hvalue := (comparesAt hclose (2 * cs.length + 2)).value (skipSpaces cs) (by omega)
  generalize readValue noRepeats (2 * cs.length + 2) (skipSpaces cs) = strict,
    readValue close (2 * cs.length + 2) (skipSpaces cs) = plain at hvalue
  cases hvalue with
  | @read v rest hspells hclean =>
    simp only [ok_bind]
    split
    · exact .read (hspells.distinct hclean) hclean
    · exact .malformed _ _ hclean
  | repeated plain h => exact .repeated _ h
  | malformed problem left _ hclean => exact .malformed problem left hclean

/-- No object is closed behind a byte order mark. -/
theorem clean_byteOrderMark (rest : List Char) : Clean .value ('\ufeff' :: rest) := by
  intro ms r h
  cases h with
  | self h =>
    cases h with
    | atom h => exact absurd rfl ((atomic_of_readAtom h).ne_object ms)

theorem comparesWhole_read {close : Closing} (hclose : close.Lenient) (text : String) :
    ComparesWhole (skipSpaces text.toList) (read noRepeats text) (read close text) := by
  unfold read
  split
  · next rest htext =>
    rw [htext]
    exact .malformed _ _ (clean_byteOrderMark rest)
  · exact comparesWhole_readRaw hclose text.toList

/-! ## Raw values -/

theorem chars?_eq_some {ps : List Piece} {cs : List Char} (h : chars? ps = some cs) :
    ps = cs.map .char := by
  induction ps generalizing cs with
  | nil =>
    cases h
    rfl
  | cons p ps ih =>
    cases p with
    | unit => cases h
    | char c =>
      obtain ⟨cs', hcs, rfl⟩ := Option.map_eq_some_iff.1 h
      rw [ih hcs, List.map_cons]

theorem text?_eq_some {ps : List Piece} {s : String} (h : text? ps = some s) :
    ps = s.toList.map .char := by
  obtain ⟨cs, hcs, rfl⟩ := Option.map_eq_some_iff.1 h
  rw [chars?_eq_some hcs, String.toList_ofList]

theorem mem_itemsOfRaw? {items : List Raw} {ws : List Json} (h : itemsOfRaw? items = some ws) :
    ∀ w ∈ ws, ∃ v ∈ items, ofRaw? v = some w := by
  induction items generalizing ws with
  | nil =>
    cases h
    simp
  | cons v items ih =>
    simp only [itemsOfRaw?, Option.bind_eq_bind, Option.bind_eq_some_iff, Option.pure_def,
      Option.some.injEq] at h
    obtain ⟨w, hw, ws', hws, rfl⟩ := h
    refine List.forall_mem_cons.2 ⟨⟨v, List.mem_cons_self, hw⟩, fun w' hw' => ?_⟩
    obtain ⟨v', hv', heq⟩ := ih hws w' hw'
    exact ⟨v', List.mem_cons_of_mem v hv', heq⟩

theorem mem_membersOfRaw? {members : List (List Piece × Raw)} {ms : List (String × Json)}
    (h : membersOfRaw? members = some ms) :
    keys members = (keys ms).map (fun key => key.toList.map .char) ∧
      ∀ m ∈ ms, ∃ v ∈ members, ofRaw? v.2 = some m.2 := by
  induction members generalizing ms with
  | nil =>
    cases h
    simp [keys]
  | cons m members ih =>
    simp only [membersOfRaw?, Option.bind_eq_bind, Option.bind_eq_some_iff, Option.pure_def,
      Option.some.injEq] at h
    obtain ⟨key, hkey, w, hw, ms', hms, rfl⟩ := h
    obtain ⟨hkeys, hmem⟩ := ih hms
    refine ⟨?_, List.forall_mem_cons.2 ⟨⟨m, List.mem_cons_self, hw⟩, fun m' hm' => ?_⟩⟩
    · rw [keys, List.map_cons, text?_eq_some hkey]
      exact congrArg _ hkeys
    · obtain ⟨v, hv, heq⟩ := hmem m' hm'
      exact ⟨v, List.mem_cons_of_mem m hv, heq⟩

/-- Texts that are told apart by their pieces are different. -/
theorem Distinct.of_raw {v : Raw} {w : Json} (h : v.Distinct) (hraw : ofRaw? v = some w) :
    w.Distinct := by
  induction h generalizing w with
  | null => cases hraw; exact .null
  | bool b => cases hraw; exact .bool b
  | int n => cases hraw; exact .int n
  | float x => cases hraw; exact .float x
  | string ps =>
    obtain ⟨s, -, rfl⟩ := Option.map_eq_some_iff.1 hraw
    exact .string s
  | array hitems ih =>
    obtain ⟨ws, hws, rfl⟩ := Option.map_eq_some_iff.1 hraw
    refine .array fun w hw => ?_
    obtain ⟨v, hv, heq⟩ := mem_itemsOfRaw? hws w hw
    exact ih v hv heq
  | object hkeys hmembers ih =>
    obtain ⟨ms, hms, rfl⟩ := Option.map_eq_some_iff.1 hraw
    obtain ⟨hsame, hmem⟩ := mem_membersOfRaw? hms
    rw [hsame] at hkeys
    refine .object hkeys.of_map fun m hm => ?_
    obtain ⟨v, hv, heq⟩ := hmem m hm
    exact ih v hv heq

/-! ## Long integers -/

/-- A one with too many digits behind it is refused. -/
theorem readRaw_longInteger (close : Closing) {ds : List Char}
    (hds : ∀ c ∈ ds, Text.isDigit c = true) (hlength : maxDigits ≤ ds.length) :
    readRaw close ('1' :: ds) =
      .error (.malformed (.longInteger (ds.length - maxDigits)) 0) := by
  have hwhole : readWhole ('1' :: ds) = some ('1' :: ds, []) := by
    have htake : (ds ++ []).takeWhile Text.isDigit = ds ++ [] := List.takeWhile_append_of_pos hds
    have hdrop : (ds ++ []).dropWhile Text.isDigit = [] := List.dropWhile_append_of_pos hds
    rw [List.append_nil] at htake hdrop
    show some ('1' :: ds.takeWhile Text.isDigit, ds.dropWhile Text.isDigit) = _
    rw [htake, hdrop]
  have hlong : integer false ('1' :: ds) = .error (.longInteger (ds.length - maxDigits)) := by
    rw [integer, if_neg (by rw [List.length_cons]; omega), List.length_cons,
      Nat.add_sub_add_right]
  have hatom : readAtom ('1' :: ds) =
      .error (.malformed (.longInteger (ds.length - maxDigits)) 0) := by
    have hnumber : readNumber ('1' :: ds) = some (integer false ('1' :: ds), []) := by
      rw [readNumber, readUnsigned, hwhole]
      · rfl
      · simp
    rw [hlong] at hnumber
    show readNumeral ('1' :: ds) = _
    rw [readNumeral, hnumber]
    rfl
  show readAtom ('1' :: ds) >>= _ = _
  rw [hatom]
  rfl

end Typegen.Json

namespace Typegen.Document

open Json (Clean Repeats Raw Problem skipSpaces)

/-- How loading a text comes out beside parsing it. -/
theorem load_cases (text : String) :
    (∃ v, v.Distinct ∧ Clean .value (skipSpaces text.toList) ∧ loadRaw text = .ok v ∧
        parseRaw text = .ok v) ∨
      (∃ key, Repeats .value (skipSpaces text.toList) key ∧
        loadRaw text = .error (.ofSchema (.repeatedKey key))) ∨
      Clean .value (skipSpaces text.toList) ∧
        ((∃ problem, loadRaw text = .error (.ofSchema (.invalidJson problem)) ∧
          parseRaw text = .error (.malformedJson problem)) ∨
        ∃ excess, loadRaw text = .error (.badOption (Problem.longInteger excess).text) ∧
          parseRaw text = .error (.badOption (Problem.longInteger excess).text)) := by
  have hread := Json.comparesWhole_read Json.lenient_lastWins text
  unfold loadRaw parseRaw
  generalize Json.read Json.noRepeats text = strict, Json.read Json.lastWins text = plain at hread
  cases hread with
  | read hdistinct hclean => exact .inl ⟨_, hdistinct, hclean, rfl, rfl⟩
  | repeated plain h => exact .inr (.inl ⟨_, h, rfl⟩)
  | malformed problem left hclean =>
    refine .inr (.inr ⟨hclean, ?_⟩)
    cases problem with
    | longInteger excess => exact .inr ⟨excess, rfl, rfl⟩
    | _ => exact .inl ⟨_, rfl, rfl⟩

/-- A loaded document repeats no key in any object. -/
theorem distinct_of_load {text : String} {d : Json} (h : load text = .ok d) : d.Distinct := by
  obtain ⟨v, hload, h⟩ := bind_eq_ok.1 h
  unfold unicode at h
  split at h
  · next hraw =>
    cases h
    refine Json.Distinct.of_raw ?_ hraw
    rcases load_cases text with ⟨v, hdistinct, -, hv, -⟩ | ⟨key, -, hkey⟩ |
      ⟨-, ⟨problem, hproblem, -⟩ | ⟨excess, hexcess, -⟩⟩ <;> simp_all
  · cases h

/-- A text is loaded as it is parsed, provided that no object closed in it repeats a key.  With
repeated keys, loading fails with the first one of the first object that has one.  A misspelled text
fails for its spelling only if no such object is closed before, and so does a text with an integer
that is too long, which is no fault of a schema. -/
theorem load_refuses_repeats (text : String) :
    (∀ v, loadRaw text = .ok v ↔ parseRaw text = .ok v ∧ Clean .value (skipSpaces text.toList)) ∧
    (∀ key, loadRaw text = .error (.ofSchema (.repeatedKey key)) ↔
      Repeats .value (skipSpaces text.toList) key) ∧
    (∀ problem, loadRaw text = .error (.ofSchema (.invalidJson problem)) ↔
      parseRaw text = .error (.malformedJson problem) ∧ Clean .value (skipSpaces text.toList)) ∧
    (∀ words, loadRaw text = .error (.badOption words) ↔
      parseRaw text = .error (.badOption words) ∧ Clean .value (skipSpaces text.toList)) ∧
    ∀ failure, loadRaw text = .error failure →
      (∃ key, failure = .ofSchema (.repeatedKey key) ∧
        failure.message = "Duplicate object key " ++ Json.displayPieces key) ∨
      (∃ problem, failure = .ofSchema (.invalidJson problem) ∧
        failure.message = "Invalid JSON: " ++ problem) ∨
      ∃ excess, failure = .badOption (Problem.longInteger excess).text := by
  rcases load_cases text with ⟨v, -, hclean, hload, hparse⟩ | ⟨key, hkey, hload⟩ |
    ⟨hclean, ⟨problem, hload, hparse⟩ | ⟨excess, hload, hparse⟩⟩
  · rw [hload, hparse]
    refine ⟨fun w => (and_iff_left hclean).symm, fun key => ?_, by simp, by simp, by simp⟩
    exact iff_of_false (by simp) fun h => h.not_clean hclean
  · rw [hload]
    have hnot : ∀ {P Q : Prop}, ¬P → (P ↔ Q ∧ Clean .value (skipSpaces text.toList)) :=
      fun hP => iff_of_false hP fun h => hkey.not_clean h.2
    refine ⟨fun w => hnot (by simp), fun key' => ⟨fun h => ?_, fun h => ?_⟩,
      fun problem => hnot ?_, fun words => hnot ?_, fun failure h => ?_⟩
    · cases h
      exact hkey
    · rw [hkey.unique h]
    · rintro ⟨⟩
    · rintro ⟨⟩
    · cases h
      exact .inl ⟨key, rfl, rfl⟩
  all_goals
    rw [hload, hparse]
    refine ⟨by simp, fun key => iff_of_false ?_ fun h => h.not_clean hclean, fun problem' => ?_,
      fun words => ?_, fun failure h => ?_⟩
    · rintro ⟨⟩
  · rw [and_iff_left hclean]
    exact ⟨fun h => (by cases h; rfl), fun h => by cases h; rfl⟩
  · exact iff_of_false (by rintro ⟨⟩) (by rintro ⟨⟨⟩, -⟩)
  · cases h
    exact .inr (.inl ⟨problem, rfl, rfl⟩)
  · exact iff_of_false (by rintro ⟨⟩) (by rintro ⟨⟨⟩, -⟩)
  · rw [and_iff_left hclean]
  · cases h
    exact .inr (.inr ⟨excess, rfl⟩)

/-- An integer with one digit too many. -/
def ones : String := String.ofList ('1' :: List.replicate Json.maxDigits '1')

/-- An integer that is too long is neither loaded nor reported as a fault of a schema. -/
theorem load_longInteger : loadRaw ones = .error (.badOption (Problem.longInteger 0).text) ∧
    ∀ fault context, loadRaw ones ≠ .error (.ofSchema fault context) := by
  have hdigits : ∀ c ∈ List.replicate Json.maxDigits '1', Text.isDigit c = true := by simp; decide
  have hread := Json.readRaw_longInteger Json.noRepeats hdigits (by simp)
  rw [List.length_replicate, Nat.sub_self] at hread
  have hload : loadRaw ones = .error (.badOption (Problem.longInteger 0).text) := by
    show report invalid _ (Json.read Json.noRepeats ones) = _
    have hones : Json.read Json.noRepeats ones = .error (.malformed (.longInteger 0) 0) := by
      rw [Json.read, ones, String.toList_ofList]
      exact hread
    rw [hones]
    rfl
  exact ⟨hload, fun fault context h => by rw [hload] at h; cases h⟩

end Typegen.Document
