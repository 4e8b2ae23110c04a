import Mathlib.Logic.Function.Basic
import Typegen.Json.Pointer

/-!
# Places

A place is written as a text in which a slash comes before every key and the slashes and tildes of
the keys themselves are escaped.  `Pointer.read` takes such a text apart again, so that the text of
a place determines the place.  `Pointer.Under` is the relation between a place and the places below
it.
-/

namespace Typegen.Pointer

@[simp] theorem push_push (p : Pointer) (keys more : List String) :
    (p.push keys).push more = p.push (keys ++ more) := by
  simp [push]

theorem segments_push (p : Pointer) (keys : List String) :
    (p.push keys).segments = p.segments ++ keys := rfl

/-! ## Texts of places -/

/-- A key from the characters that it is written with. -/
def unescape : List Char → List Char
  | '~' :: '0' :: cs => '~' :: unescape cs
  | '~' :: '1' :: cs => '/' :: unescape cs
  | c :: cs => c :: unescape cs
  | [] => []

/-- The keys in the text of a place. -/
def read (text : String) : List String :=
  (text.toList.splitOn '/').tail.map fun cs => String.ofList (unescape cs)

theorem unescape_escapeChars (cs : List Char) : unescape (escapeChars cs) = cs := by
  fun_induction escapeChars cs with
  | case1 => rfl
  | case2 cs ih => rw [unescape, ih]
  | case3 cs ih => rw [unescape, ih]
  | case4 c cs htilde hslash ih =>
    rw [unescape, ih]
    · rintro cs' rfl
      exact absurd rfl htilde
    · rintro cs' rfl
      exact absurd rfl htilde

theorem slash_notMem_escapeChars (cs : List Char) : '/' ∉ escapeChars cs := by
  fun_induction escapeChars cs with
  | case1 => simp
  | case2 cs ih => simp [ih]
  | case3 cs ih => simp [ih]
  | case4 c cs htilde hslash ih =>
    rw [List.mem_cons, not_or]
    exact ⟨fun h => hslash h.symm, ih⟩

theorem chars_eq_intercalate (p : Pointer) :
    p.chars = ['/'].intercalate (['#'] :: p.segments.map fun s => escapeChars s.toList) := by
  have hgo : ∀ (start : List Char) (segments : List String),
      start ++ segments.flatMap (fun s => '/' :: escapeChars s.toList) =
        ['/'].intercalate (start :: segments.map fun s => escapeChars s.toList) := by
    intro start segments
    induction segments generalizing start with
    | nil => simp [List.intercalate]
    | cons s segments ih =>
      rw [List.flatMap_cons, List.map_cons, List.intercalate_cons_cons, ← ih]
      simp
  exact hgo ['#'] p.segments

theorem read_text (p : Pointer) : read p.text = p.segments := by
  have hsplit : p.chars.splitOn '/' = ['#'] :: p.segments.map fun s => escapeChars s.toList := by
    rw [chars_eq_intercalate]
    apply List.splitOn_intercalate
    · intro cs hcs
      rcases List.mem_cons.1 hcs with rfl | hcs
      · decide
      · obtain ⟨s, -, rfl⟩ := List.mem_map.1 hcs
        exact slash_notMem_escapeChars _
    · exact List.cons_ne_nil _ _
  rw [read, text, String.toList_ofList, hsplit, List.tail_cons, List.map_map]
  refine (List.map_congr_left fun s _ => ?_).trans (List.map_id _)
  simp [unescape_escapeChars]

theorem text_injective : Function.Injective Pointer.text := by
  intro p q h
  have hsegments : p.segments = q.segments := by rw [← read_text p, ← read_text q, h]
  cases p
  cases q
  exact congrArg Pointer.mk hsegments

/-! ## Places below others -/

/-- A place is another one or lies below it. -/
def Under (p q : Pointer) : Prop := p.segments <+: q.segments

theorem under_refl (p : Pointer) : p.Under p := List.prefix_refl _

variable {p q : Pointer} {keys : List String}

theorem Under.of_push (h : (p.push keys).Under q) : p.Under q :=
  (List.prefix_append _ _).trans h

theorem Under.first_key {key : String} (h : (p.push (key :: keys)).Under q) :
    (p.push [key]).Under q := by
  rw [← List.singleton_append, ← push_push] at h
  exact h.of_push

theorem Under.ne_of_push {key : String} (h : (p.push (key :: keys)).Under q) : q ≠ p := by
  rintro rfl
  have hlength := h.length_le
  simp only [segments_push, List.length_append, List.length_cons] at hlength
  omega

/-- A place lies below at most one of the places that are reached by one key. -/
theorem Under.key_eq {a b : String} {as bs : List String} (ha : (p.push (a :: as)).Under q)
    (hb : (p.push (b :: bs)).Under q) : a = b := by
  obtain ⟨restA, ha⟩ := ha
  obtain ⟨restB, hb⟩ := hb
  rw [← hb] at ha
  simp only [segments_push, List.append_assoc, List.append_cancel_left_eq, List.cons_append,
    List.cons.injEq] at ha
  exact ha.1

end Typegen.Pointer
