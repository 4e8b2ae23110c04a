import Typegen.Proofs.Writing

/-!
# What writing leaves behind

For paths that never step back, everything about writing can be said by locations: a path leads to
the location that its parts spell, and every location above that has to be a directory.  A file is
then written, and with it the missing directories above it and nothing else, or the tree is left
exactly as it was (`WritesAccepted`).  Files whose locations lie apart from each other do not get in
each other's way, so what holds for one holds for all of them (`writesExactly_writeAll`).
-/

namespace Typegen.Files

open Target (RenderedFile)
open Typegen.Files.Tree

variable {t t' : Tree} {l k : Location} {p dir : Path} {content name : String} {force : Bool}

/-! ## Paths that never step back -/

/-- All parts of a path are names, and none of them steps back. -/
structure Path.Straight (p : Path) : Prop where
  named : "" ∉ p.parts
  onward : ".." ∉ p.parts

theorem Path.Straight.of_child (h : (dir.child name).Straight) :
    dir.Straight ∧ name ≠ "" ∧ name ≠ ".." := by
  obtain ⟨hnamed, honward⟩ := h
  simp only [Path.child, List.mem_append, List.mem_singleton, not_or] at hnamed honward
  exact ⟨⟨hnamed.1, honward.1⟩, fun h => hnamed.2 h.symm, fun h => honward.2 h.symm⟩

variable {root : String}

theorem normalize_eq_append {q : List String} (h : ".." ∉ q) :
    t.normalize ⟨root, q⟩ = t.start ⟨root, []⟩ ++ q := by
  have hfold : ∀ (q : List String) (l : Location), ".." ∉ q → q.foldl follow l = l ++ q := by
    intro q
    induction q with
    | nil => simp
    | cons part q ih =>
      intro l hq
      rw [List.mem_cons, not_or] at hq
      rw [List.foldl_cons, follow, if_neg (Ne.symm hq.1), ih _ hq.2]
      simp
  rw [normalize_eq]
  exact hfold q _ h

/-- The locations above one that exists are directories. -/
theorem Tree.Closed.above (h : t.Closed) (hl : t.get? l ≠ none) (hk : k <+: l) (hne : k ≠ l) :
    t.get? k = some .directory := by
  induction l using List.reverseRecOn with
  | nil => exact absurd (List.prefix_nil.1 hk) hne
  | append_singleton l part ih =>
    have hdir := h _ hl
    rw [List.dropLast_concat] at hdir
    rcases List.prefix_concat_iff.1 hk with heq | hk
    · exact absurd heq hne
    · by_cases heq : k = l
      · rw [heq]
        exact hdir
      · exact ih (by rw [hdir]; simp) hk heq

/-- The trail of a path that never steps back goes down from where the path starts. -/
theorem mem_trail_of_straight (h : ".." ∉ p.parts) (hl : l ∈ t.trail p) :
    t.start p <+: l ∧ l <+: t.normalize p := by
  obtain ⟨q, hq, rfl⟩ := mem_trail.1 hl
  obtain ⟨root, parts⟩ := p
  have hdots : ".." ∉ q := fun hmem => h (hq.subset hmem)
  rw [normalize_eq_append hdots, normalize_eq_append h]
  exact ⟨List.prefix_append _ _, List.prefix_append_right_inj _ |>.2 hq⟩

/-- What exists is found. -/
theorem locate_of_get? (hclosed : t.Closed) (hstraight : ".." ∉ p.parts) (hshort : ¬ TooLong p)
    (hget : t.get? (t.normalize p) ≠ none) : t.locate p = .ok (t.normalize p) := by
  obtain ⟨root, parts⟩ := p
  refine locate_eq_ok.2 ⟨?_, rfl, fun q part rest heq => ⟨?_, ?_⟩⟩
  · by_contra hlong
    exact hshort (.inl ⟨parts, List.prefix_rfl, Nat.not_le.1 hlong⟩)
  · have hparts : parts = q ++ part :: rest := heq
    subst hparts
    have hdots : ".." ∉ q := fun hmem => hstraight (List.mem_append_left _ hmem)
    refine hclosed.above hget ?_ ?_
    · rw [normalize_eq_append hdots, normalize_eq_append hstraight]
      simp
    · rw [normalize_eq_append hdots, normalize_eq_append hstraight]
      simp
  · by_contra hlong
    refine hshort (.inr ⟨part, ?_, Nat.not_le.1 hlong⟩)
    rw [heq]
    simp

theorem find?_eq (hclosed : t.Closed) (hstraight : ".." ∉ p.parts) (hshort : ¬ TooLong p) :
    t.find? p = t.get? (t.normalize p) := by
  rcases hget : t.get? (t.normalize p) with _ | e
  · rcases hfind : t.find? p with _ | e
    · rfl
    · rw [(find?_eq_some.1 hfind).2] at hget
      cases hget
  · exact find?_eq_some.2 ⟨locate_of_get? hclosed hstraight hshort (by rw [hget]; simp), hget⟩

theorem contains_eq (hclosed : t.Closed) (hstraight : ".." ∉ p.parts) (hshort : ¬ TooLong p)
    (hpassable : isPassable p.text = true) :
    t.contains p = .ok (t.get? (t.normalize p)).isSome := by
  rw [← find?_eq hclosed hstraight hshort]
  rcases hcontains : t.contains p with f | taken
  · exact absurd (contains_eq_error hcontains).2 hshort
  · have hiff := contains_eq_true (t := t) (p := p)
    rw [hcontains, and_iff_right hpassable, ← Option.isSome_iff_ne_none, Except.ok.injEq] at hiff
    rw [Bool.eq_iff_iff.2 hiff]

/-! ## Files in the way -/

/-- A path that goes on behind a file leads nowhere. -/
theorem locate_of_file {part : String} {q rest : List String} (hclosed : t.Closed)
    (hstraight : ".." ∉ q) (hshort : ¬ TooLong ⟨root, q ++ part :: rest⟩)
    (hfile : t.get? (t.normalize ⟨root, q⟩) = some (.file content)) :
    t.locate ⟨root, q ++ part :: rest⟩ = .error .notDirectory := by
  have hfront : ¬ TooLong ⟨root, q⟩ :=
    fun hlong => hshort (hlong.of_front (List.prefix_append _ _) rfl)
  have hlocate := locate_of_get? hclosed hstraight hfront (by rw [hfile]; simp)
  have hlength : ¬ maxPathBytes < (Path.text ⟨root, q⟩).utf8ByteSize :=
    fun hlong => hfront (.inl ⟨q, List.prefix_rfl, hlong⟩)
  have hlength' : ¬ maxPathBytes < (Path.text ⟨root, q ++ part :: rest⟩).utf8ByteSize :=
    fun hlong => hshort (.inl ⟨_, List.prefix_rfl, hlong⟩)
  rw [locate, if_neg hlength] at hlocate
  rw [locate, if_neg hlength', List.foldlM_append]
  refine bind_eq_error.2 (.inr ⟨_, hlocate, ?_⟩)
  rw [List.foldlM_cons]
  refine bind_eq_error.2 (.inl ?_)
  rw [step, hfile]

/-- No directory is made if a file is in the way. -/
theorem makeDirectories_of_blocked (hclosed : t.Closed) (hstraight : ".." ∉ dir.parts)
    (hshort : ¬ TooLong dir) (hblocked : t.Blocked dir) :
    ∃ f, t.makeDirectories dir = (t, .error f) := by
  obtain ⟨l, hl, content, hfile⟩ := hblocked
  obtain ⟨q, ⟨rest, hparts⟩, rfl⟩ := mem_trail.1 hl
  obtain ⟨root, parts⟩ := dir
  have hparts : q ++ rest = parts := hparts
  subst hparts
  have hmake : ∃ o, o ≠ .missing ∧ t.makeDirectory ⟨root, q ++ rest⟩ = .error o := by
    cases rest with
    | nil =>
      rw [List.append_nil] at hstraight hshort ⊢
      have hlocate := locate_of_get? hclosed hstraight hshort (by rw [hfile]; simp)
      exact ⟨.occupied, by simp, makeDirectory_of_some hlocate hfile⟩
    | cons part rest =>
      have hdots : ".." ∉ q := fun hmem => hstraight (List.mem_append_left _ hmem)
      exact ⟨.notDirectory, by simp,
        makeDirectory_of_error (locate_of_file hclosed hdots hshort hfile)⟩
  have hensure : ∃ f, t.ensureDirectory ⟨root, q ++ rest⟩ = (t, .error f) := by
    have hnot : ¬ t.isDirectory ⟨root, q ++ rest⟩ = true := by
      rw [isDirectory_iff]
      exact fun hdir => not_blocked hdir ⟨_, hl, content, hfile⟩
    obtain ⟨o, -, hmake⟩ := hmake
    refine ⟨failure ⟨root, q ++ rest⟩ o, ?_⟩
    simp only [ensureDirectory, hmake, hnot, Bool.false_eq_true, Bool.and_false, if_false]
  obtain ⟨o, ho, hmake⟩ := hmake
  rw [makeDirectories]
  rcases List.eq_nil_or_concat' (q ++ rest) with hnil | ⟨above, part, heq⟩
  · rw [hnil] at hensure ⊢
    exact hensure
  · have hreverse : (q ++ rest).reverse = part :: above.reverse := by rw [heq]; simp
    rw [hreverse, ensureParents, ← hreverse, List.reverse_reverse, hmake]
    cases o with
    | missing => exact absurd rfl ho
    | _ => exact hensure

/-- A regular file is above a location. -/
def Obstructed (t : Tree) (l : Location) : Prop :=
  ∃ k, k <+: l ∧ k ≠ l ∧ ∃ content, t.get? k = some (.file content)

instance (e : Option Entry) : Decidable (∃ content, e = some (.file content)) :=
  decidable_of_iff (e ≠ none ∧ e ≠ some .directory) (by rcases e with _ | ⟨_ | _⟩ <;> simp)

instance (t : Tree) (l : Location) : Decidable (Obstructed t l) :=
  decidable_of_iff (∃ k ∈ l.inits, k ≠ l ∧ ∃ content, t.get? k = some (.file content))
    (by simp [Obstructed])

theorem get?_of_start (hk : k <+: t.start p) : t.get? k = some .directory := by
  rw [start] at hk
  split_ifs at hk
  · rw [List.prefix_nil.1 hk]
    exact t.get?_nil
  · exact if_pos (List.isPrefixOf_iff_prefix.2 hk)

theorem obstructed_iff (hstraight : (dir.child name).Straight) :
    Obstructed t (t.normalize (dir.child name)) ↔ t.Blocked dir := by
  obtain ⟨⟨-, honward⟩, -, hdots⟩ := hstraight.of_child
  rw [normalize_child hdots]
  constructor
  · rintro ⟨k, hk, hne, content, hfile⟩
    have hk := (List.prefix_concat_iff.1 hk).resolve_left hne
    obtain ⟨root, parts⟩ := dir
    rw [normalize_eq_append honward] at hk
    rcases List.prefix_or_prefix_of_prefix hk (List.prefix_append _ _) with hk | ⟨q, rfl⟩
    · rw [get?_of_start hk] at hfile
      cases hfile
    · have hq := (List.prefix_append_right_inj _).1 hk
      have hdots' : ".." ∉ q := fun hmem => honward (hq.subset hmem)
      exact ⟨_, mem_trail.2 ⟨q, hq, normalize_eq_append hdots'⟩, content, hfile⟩
  · rintro ⟨l, hl, content, hfile⟩
    have hfront := (mem_trail_of_straight honward hl).2
    refine ⟨l, hfront.trans (List.prefix_append _ _), fun heq => ?_, content, hfile⟩
    have hlength := hfront.length_le
    rw [heq, List.length_append, List.length_singleton] at hlength
    omega

/-! ## One file -/

/-- A tree is another one with some files at their locations and the missing directories above
them.  Nothing else is different. -/
structure AddsExactly (files : List (Location × String)) (t t' : Tree) : Prop where
  current : t'.current = t.current
  file : ∀ x ∈ files, t'.get? x.1 = some (.file x.2)
  above : ∀ x ∈ files, ∀ k, k <+: x.1 → k ≠ x.1 →
    (t.get? k = none ∨ t.get? k = some .directory) ∧ t'.get? k = some .directory
  other : ∀ k, (∀ x ∈ files, ¬ k <+: x.1) → t'.get? k = t.get? k

/-- A file may be put at a location: there is no directory, and without overwriting nothing. -/
def Vacant (t : Tree) (force : Bool) (l : Location) : Prop :=
  t.get? l ≠ some .directory ∧ (force = false → t.get? l = none)

/-- Making a directory changes nothing but the locations that lead to it, where something is
missing. -/
theorem get?_of_makeDirectories (hclosed : t.Closed) (hstraight : ".." ∉ dir.parts)
    (hmake : t.makeDirectories dir = (t', .ok ())) (k : Location) :
    t'.get? k = t.get? k ∨ (k <+: t.normalize dir ∧ t.get? k = none) := by
  have hentry := (makesDirectories_makeDirectories hclosed dir).changes.entry k
  rw [hmake] at hentry
  generalize t.get? k = a, t'.get? k = b at hentry
  cases hentry with
  | same => exact .inl rfl
  | file hmem => cases hmem
  | directory hmem => exact .inr ⟨(mem_trail_of_straight hstraight hmem).2, rfl⟩

/-- Once the directory of a file has been made, the file is put into it. -/
theorem addsExactly_set (hclosed : t.Closed) (hstraight : (dir.child name).Straight)
    (hmake : t.makeDirectories dir = (t', .ok ()))
    (hget : t'.get? (t.normalize dir ++ [name]) ≠ some .directory) (content : String) :
    (t'.set (t.normalize dir ++ [name]) (.file content)).Closed ∧
      AddsExactly [(t.normalize dir ++ [name], content)] t
        (t'.set (t.normalize dir ++ [name]) (.file content)) := by
  have hdir := makesDirectories_makeDirectories hclosed dir
  rw [hmake] at hdir
  have hpresent := (find?_eq_some.1 (hdir.present rfl)).2
  rw [hdir.changes.normalize] at hpresent
  refine ⟨hdir.closed.set hget (by rwa [List.dropLast_concat]) _, ?_⟩
  refine ⟨hdir.changes.current, fun x hx => ?_, fun x hx k hk hne => ?_, fun k hk => ?_⟩
  · obtain rfl := List.mem_singleton.1 hx
    rw [get?_set hget, if_pos rfl]
  · obtain rfl := List.mem_singleton.1 hx
    have hk := (List.prefix_concat_iff.1 hk).resolve_left hne
    have habove : t'.get? k = some .directory := by
      by_cases heq : k = t.normalize dir
      · rw [heq]
        exact hpresent
      · exact hdir.closed.above (by rw [hpresent]; simp) hk heq
    rw [get?_set hget, if_neg hne]
    refine ⟨?_, habove⟩
    rcases get?_of_makeDirectories hclosed hstraight.of_child.1.onward hmake k with h | h
    · exact .inr (h.symm.trans habove)
    · exact .inl h.2
  · have hk := hk _ (List.mem_singleton_self _)
    have hne : k ≠ t.normalize dir ++ [name] := fun heq => hk (heq ▸ List.prefix_rfl)
    rw [get?_set hget, if_neg hne]
    refine (get?_of_makeDirectories hclosed hstraight.of_child.1.onward hmake k).resolve_right ?_
    exact fun h => hk (h.1.trans (List.prefix_append _ _))

/-- A file is put in its directory once that has been made, unless a directory stands there. -/
theorem place_of_fits (hempty : name ≠ "") (hdots : name ≠ "..")
    (hdir : t'.find? dir = some .directory) (hfits : Fits t' dir name) :
    place t' (dir.child name) content =
      if t'.get? (t'.normalize dir ++ [name]) = some .directory then (t', .error .isDirectory)
      else (t'.set (t'.normalize dir ++ [name]) (.file content), .ok ()) := by
  have hlocate : t'.locate (dir.child name) = .ok (t'.normalize dir ++ [name]) := by
    rcases hlocate : t'.locate (dir.child name) with o | l
    · exact absurd (tooLong_of_locate hdir hlocate).2 hfits.short
    · rw [← normalize_of_locate hlocate, normalize_child hdots]
  have hplace : place t' (dir.child name) content =
      writeThrough t' (dir.child name) content := by
    rw [place, Path.name_child, hfits.passable.2, if_neg (by simp),
      if_neg (Nat.not_lt.2 hfits.temporary.1), if_neg (Nat.not_lt.2 hfits.temporary.2)]
  rw [hplace]
  split_ifs with hget
  · exact writeThrough_of_directory hempty hdots hdir hlocate hget
  · exact writeThrough_of_ok hempty hdots hdir hlocate hget

/-- A file that may be written is put in its directory, if that can be made. -/
theorem write_of_contains {taken : Bool} (hcontains : t.contains p = .ok taken)
    (hfree : ¬ (taken = true ∧ force = false)) (hpassable : isPassable p.parent.text = true)
    (content : String) :
    (∀ t' f, t.makeDirectories p.parent = (t', .error f) →
        write t force p content = (t', .error f)) ∧
      ∀ t', t.makeDirectories p.parent = (t', .ok ()) →
        write t force p content = place t' p content := by
  have hfree : (taken && !force) = false := by
    rw [← Bool.not_eq_true, Bool.and_eq_true, Bool.not_eq_true']
    exact hfree
  constructor
  · intro t' f hmake
    simp [write, hcontains, hfree, hpassable, hmake]
  · intro t' hmake
    simp [write, hcontains, hfree, hpassable, hmake]

/-- Once its directory has been made, a file is put there, unless a directory stands in its place.
In that case there was nothing to be made. -/
theorem place_of_made (hclosed : t.Closed) (hstraight : (dir.child name).Straight)
    (hfits : Fits t dir name) (hmake : t.makeDirectories dir = (t', .ok ())) (content : String) :
    (t.get? (t.normalize dir ++ [name]) = some .directory ∧
        place t' (dir.child name) content = (t, .error .isDirectory)) ∨
      (t.get? (t.normalize dir ++ [name]) ≠ some .directory ∧
        ∃ t'', place t' (dir.child name) content = (t'', .ok ()) ∧ t''.Closed ∧
          AddsExactly [(t.normalize dir ++ [name], content)] t t'') := by
  obtain ⟨⟨-, honward⟩, hempty, hdots⟩ := hstraight.of_child
  have hdir := makesDirectories_makeDirectories hclosed dir
  rw [hmake] at hdir
  have hsame : t'.get? (t.normalize dir ++ [name]) = t.get? (t.normalize dir ++ [name]) := by
    refine (get?_of_makeDirectories hclosed honward hmake _).resolve_right fun h => ?_
    have hlength := h.1.length_le
    rw [List.length_append, List.length_singleton] at hlength
    omega
  have hplace : place t' (dir.child name) content = _ :=
    place_of_fits hempty hdots (hdir.present rfl) (hdir.changes.fits hfits)
  rw [hdir.changes.normalize, hsame] at hplace
  split_ifs at hplace with hget
  · have hparent := hclosed _ (by rw [hget]; simp)
    rw [List.dropLast_concat, ← find?_eq hclosed honward hfits.not_tooLong] at hparent
    rw [makeDirectories_of_directory hparent] at hmake
    cases hmake
    exact .inl ⟨hget, hplace⟩
  · exact .inr ⟨hget, _, hplace, addsExactly_set hclosed hstraight hmake (hsame ▸ hget) content⟩

/-- What comes of writing one file that the system accepts. -/
inductive WritesAccepted (t : Tree) (force : Bool) (p : Path) (content : String) :
    Tree × Except Failure Unit → Prop
  | written {t' : Tree} (hvacant : Vacant t force (t.normalize p))
      (hreachable : ¬ Obstructed t (t.normalize p)) (hclosed : t'.Closed)
      (hadds : AddsExactly [(t.normalize p, content)] t t') :
      WritesAccepted t force p content (t', .ok ())
  | failed (f : Failure)
      (hcause : ¬ Vacant t force (t.normalize p) ∨ Obstructed t (t.normalize p)) :
      WritesAccepted t force p content (t, .error f)

theorem writesAccepted_child (hclosed : t.Closed) (hstraight : (dir.child name).Straight)
    (hfits : Fits t dir name) (force : Bool) (content : String) :
    WritesAccepted t force (dir.child name) content
      (write t force (dir.child name) content) := by
  obtain ⟨⟨-, honward⟩, -, hdots⟩ := hstraight.of_child
  have hcontains := contains_eq hclosed hstraight.onward hfits.short hfits.passable.2
  by_cases hrefused : (t.get? (t.normalize (dir.child name))).isSome = true ∧ force = false
  · have hwrite : write t force (dir.child name) content =
        (t, .error (.fileExists (dir.child name).text)) := by
      simp [write, hcontains, hrefused]
    rw [hwrite]
    refine .failed _ (.inl fun hvacant => ?_)
    rw [hvacant.2 hrefused.2] at hrefused
    cases hrefused.1
  obtain ⟨hfails, hplaces⟩ := write_of_contains hcontains hrefused
    (by rw [Path.parent_child]; exact hfits.passable.1) content
  rw [Path.parent_child] at hfails hplaces
  by_cases hblocked : t.Blocked dir
  · obtain ⟨f, hmake⟩ := makeDirectories_of_blocked hclosed honward hfits.not_tooLong hblocked
    rw [hfails _ _ hmake]
    exact .failed f (.inr ((obstructed_iff hstraight).2 hblocked))
  have hdir := makesDirectories_makeDirectories hclosed dir
  rcases hmake : t.makeDirectories dir with ⟨t', f | ⟨⟩⟩
  · rw [hmake] at hdir
    rcases hdir.failed f rfl with h | ⟨-, h⟩
    · exact absurd h hblocked
    · exact absurd h hfits.not_tooLong
  rw [hplaces t' hmake]
  rcases place_of_made hclosed hstraight hfits hmake content with
    ⟨hget, hplace⟩ | ⟨hget, t'', hplace, hclosed'', hadds⟩
  · rw [hplace]
    rw [← normalize_child hdots] at hget
    exact .failed _ (.inl fun hvacant => hvacant.1 hget)
  · rw [hplace]
    rw [← normalize_child hdots] at hget hadds
    refine .written ⟨hget, fun hforce => ?_⟩ ?_ hclosed'' hadds
    · by_contra hsome
      exact hrefused ⟨Option.isSome_iff_ne_none.2 hsome, hforce⟩
    · rwa [obstructed_iff hstraight]

/-- Nothing can be written over the directory that a path starts from. -/
theorem write_start (hclosed : t.Closed) (hshort : ¬ TooLong ⟨root, []⟩)
    (hpassable : isPassable (Path.text ⟨root, []⟩) = true) (force : Bool) (content : String) :
    ∃ f, write t force ⟨root, []⟩ content = (t, .error f) := by
  have hget : t.get? (t.normalize ⟨root, []⟩) = some .directory := t.get?_start _
  have hcontains := contains_eq hclosed (by simp) hshort hpassable
  rw [hget] at hcontains
  cases force with
  | false => exact ⟨.fileExists (Path.text ⟨root, []⟩), by simp [write, hcontains]⟩
  | true =>
    have hfind := (find?_eq hclosed (by simp) hshort).trans hget
    rw [(write_of_contains hcontains (by simp) hpassable content).2 t
      (makeDirectories_of_directory hfind), place]
    split_ifs
    · exact ⟨_, rfl⟩
    · exact ⟨_, rfl⟩
    · exact ⟨_, rfl⟩
    · exact ⟨_, writeThrough_unnamed rfl⟩

/-- A path ends in a name unless it has no parts. -/
theorem Path.eq_start_or_child (p : Path) : p = ⟨p.root, []⟩ ∨ p = p.parent.child p.name := by
  obtain ⟨root, parts⟩ := p
  rcases List.eq_nil_or_concat' parts with rfl | ⟨q, part, rfl⟩
  · exact .inl rfl
  · exact .inr (by simp [Path.child, Path.parent, Path.name])

theorem Fits.accepted (h : Fits t p.parent p.name) :
    ¬ TooLong p ∧ isPassable p.text = true := by
  rcases p.eq_start_or_child with hstart | hchild
  · have hparent : p.parent = p := by rw [hstart]; rfl
    rw [hparent] at h
    exact ⟨h.not_tooLong, h.passable.1⟩
  · rw [hchild]
    exact ⟨h.short, h.passable.2⟩

theorem writesAccepted_write (hclosed : t.Closed) (hstraight : p.Straight)
    (hfits : Fits t p.parent p.name) (force : Bool) (content : String) :
    WritesAccepted t force p content (write t force p content) := by
  rcases p.eq_start_or_child with hstart | hchild
  · obtain ⟨hshort, hpassable⟩ := hfits.accepted
    rw [hstart] at hshort hpassable ⊢
    obtain ⟨f, hwrite⟩ := write_start hclosed hshort hpassable force content
    rw [hwrite]
    exact .failed f (.inl fun hvacant => hvacant.1 (t.get?_start _))
  · rw [hchild] at hstraight ⊢
    exact writesAccepted_child hclosed hstraight hfits force content

/-- What comes of writing one file.  It is there afterwards, with the missing directories above it,
or the tree is what it was.  Only for a path that the system does not accept, directories may have
been made. -/
inductive WritesOne (t : Tree) (p : Path) (content : String) : Tree × Except Failure Unit → Prop
  | written {t' : Tree} (hadds : AddsExactly [(t.normalize p, content)] t t') :
      WritesOne t p content (t', .ok ())
  | unchanged (f : Failure) : WritesOne t p content (t, .error f)
  | unaccepted {t' : Tree} (f : Failure) (hfits : ¬ Fits t p.parent p.name)
      (hchanges : Changes [] (t.trail p.parent) t t') : WritesOne t p content (t', .error f)

theorem writesOne_child (hclosed : t.Closed) (hstraight : (dir.child name).Straight)
    (force : Bool) (content : String) :
    WritesOne t (dir.child name) content (write t force (dir.child name) content) := by
  obtain ⟨-, hempty, hdots⟩ := hstraight.of_child
  by_cases hfits : Fits t dir name
  · have hwrites := writesAccepted_child hclosed hstraight hfits force content
    generalize write t force (dir.child name) content = r at hwrites
    cases hwrites with
    | written _ _ _ hadds => exact .written hadds
    | failed f => exact .unchanged f
  · have hunfit : ¬ Fits t (dir.child name).parent (dir.child name).name := by
      rwa [Path.parent_child, Path.name_child]
    have hwrites : WritesFile t force dir name content _ := writesFile_write hclosed hempty hdots
    generalize write t force (dir.child name) content = r at hwrites
    cases hwrites with
    | written hmake hlocate hget =>
      refine .written ?_
      rw [normalize_child hdots]
      exact (addsExactly_set hclosed hstraight hmake hget content).2
    | taken f => exact .unchanged f
    | blocked f _ hchanges => exact .unaccepted f hunfit (by rwa [Path.parent_child])
    | broken _ hchanges => exact .unaccepted _ hunfit (by rwa [Path.parent_child])

/-! ## Several files -/

theorem addsExactly_nil (t : Tree) : AddsExactly [] t t := ⟨rfl, by simp, by simp, by simp⟩

/-- Files at locations that lie apart do not get in each other's way. -/
theorem AddsExactly.cons {t'' : Tree} {x : Location × String} {files : List (Location × String)}
    (h : AddsExactly [x] t t') (h' : AddsExactly files t' t'')
    (hapart : ∀ y ∈ files, ¬ x.1 <+: y.1 ∧ ¬ y.1 <+: x.1) : AddsExactly (x :: files) t t'' := by
  have hother : ∀ k, ¬ k <+: x.1 → t'.get? k = t.get? k :=
    fun k hk => h.other k (List.forall_mem_singleton.2 hk)
  refine ⟨h'.current.trans h.current, ?_, ?_, ?_⟩
  · refine List.forall_mem_cons.2 ⟨?_, h'.file⟩
    rw [h'.other _ fun y hy => (hapart y hy).1]
    exact h.file x List.mem_cons_self
  · refine List.forall_mem_cons.2 ⟨fun k hk hne => ?_, fun y hy k hk hne => ?_⟩
    · obtain ⟨hbefore, hdir⟩ := h.above x List.mem_cons_self k hk hne
      refine ⟨hbefore, ?_⟩
      by_cases hshared : ∃ y ∈ files, k <+: y.1
      · obtain ⟨y, hy, hky⟩ := hshared
        exact (h'.above y hy k hky fun heq => (hapart y hy).2 (heq ▸ hk)).2
      · rwa [h'.other k fun y hy hky => hshared ⟨y, hy, hky⟩]
    · obtain ⟨hbefore, hdir⟩ := h'.above y hy k hk hne
      refine ⟨?_, hdir⟩
      by_cases hkx : k <+: x.1
      · exact (h.above x List.mem_cons_self k hkx fun heq => (hapart y hy).1 (heq ▸ hk)).1
      · rwa [hother k hkx] at hbefore
  · intro k hk
    rw [h'.other k fun y hy => hk y (List.mem_cons_of_mem x hy)]
    exact hother k (hk x List.mem_cons_self)

/-- Files can be written side by side: their paths never step back, none of them lies at or above
another, no file is above one of them, and the system accepts them. -/
@[mk_iff]
structure Writable (t : Tree) (targets : List (Path × String)) : Prop where
  onward : ∀ x ∈ targets, ".." ∉ x.1.parts
  apart : targets.Pairwise fun x y =>
    ¬ t.normalize x.1 <+: t.normalize y.1 ∧ ¬ t.normalize y.1 <+: t.normalize x.1
  reachable : ∀ x ∈ targets, ¬ Obstructed t (t.normalize x.1)
  fits : ∀ x ∈ targets, Fits t x.1.parent x.1.name

instance (t : Tree) (targets : List (Path × String)) : Decidable (Writable t targets) :=
  decidable_of_iff _ (writable_iff t targets).symm

theorem normalize_of_current (h : t'.current = t.current) (p : Path) :
    t'.normalize p = t.normalize p := by
  simp only [Tree.normalize, h]

theorem Fits.of_current (h : t'.current = t.current) (hfits : Fits t dir name) :
    Fits t' dir name := by
  refine ⟨hfits.passable, hfits.short, ?_⟩
  rw [temporaryPathBytes, normalize_of_current h]
  exact hfits.temporary

/-- Where each of some files is to be put. -/
def places (t : Tree) (targets : List (Path × String)) : List (Location × String) :=
  targets.map fun x => (t.normalize x.1, x.2)

variable {x : Path × String} {rest targets : List (Path × String)}

/-- What is apart from a file is the same once the file has been written. -/
theorem AddsExactly.get?_apart (h : AddsExactly [(t.normalize x.1, x.2)] t t')
    (hw : Writable t (x :: rest)) {y : Path × String} (hy : y ∈ rest) (hk : t.normalize y.1 <+: k) :
    t'.get? k = t.get? k := by
  refine h.other k (List.forall_mem_singleton.2 fun hfront => ?_)
  exact ((List.pairwise_cons.1 hw.apart).1 y hy).2 (hk.trans hfront)

/-- What remains to be written can still be written after the first file. -/
theorem Writable.after (hw : Writable t (x :: rest))
    (h : AddsExactly [(t.normalize x.1, x.2)] t t') : Writable t' rest := by
  obtain ⟨happart, hrest⟩ := List.pairwise_cons.1 hw.apart
  refine ⟨fun y hy => hw.onward y (List.mem_cons_of_mem x hy), ?_, fun y hy => ?_, fun y hy => ?_⟩
  · simpa only [normalize_of_current h.current] using hrest
  · rw [normalize_of_current h.current]
    rintro ⟨k, hk, hne, content, hfile⟩
    by_cases hkx : k <+: t.normalize x.1
    · by_cases heq : k = t.normalize x.1
      · exact (happart y hy).1 (heq ▸ hk)
      · rw [(h.above _ List.mem_cons_self k hkx heq).2] at hfile
        cases hfile
    · rw [h.other k (List.forall_mem_singleton.2 hkx)] at hfile
      exact hw.reachable y (List.mem_cons_of_mem x hy) ⟨k, hk, hne, content, hfile⟩
  · exact (hw.fits y (List.mem_cons_of_mem x hy)).of_current h.current

theorem writeEach_of_ok (h : write t force x.1 x.2 = (t', .ok ())) :
    writeEach t force (x :: rest) =
      { writeEach t' force rest with paths := x.1 :: (writeEach t' force rest).paths } := by
  rw [writeEach, h]

/-- Files are written all, or one of them can not be put in its place. -/
theorem writeEach_exact (hclosed : t.Closed) (hnamed : ∀ x ∈ targets, "" ∉ x.1.parts)
    (hw : Writable t targets) (force : Bool) :
    ((∀ x ∈ targets, Vacant t force (t.normalize x.1)) ∧
        ∃ t', writeEach t force targets = ⟨t', targets.map Prod.fst, none⟩ ∧
          AddsExactly (places t targets) t t') ∨
      ((∃ x ∈ targets, ¬ Vacant t force (t.normalize x.1)) ∧
        (writeEach t force targets).failure ≠ none) := by
  induction targets generalizing t with
  | nil => exact .inl ⟨by simp, t, rfl, addsExactly_nil t⟩
  | cons x rest ih =>
    rw [List.forall_mem_cons] at hnamed
    have hstraight : x.1.Straight := ⟨hnamed.1, hw.onward x List.mem_cons_self⟩
    have hwrites := writesAccepted_write hclosed hstraight (hw.fits x List.mem_cons_self) force x.2
    generalize hwrite : write t force x.1 x.2 = r at hwrites
    cases hwrites with
    | @written t₁ hvacant _ hclosed₁ hadds =>
      have hsame : ∀ y ∈ rest, (Vacant t₁ force (t₁.normalize y.1) ↔
          Vacant t force (t.normalize y.1)) := by
        intro y hy
        rw [Vacant, Vacant, normalize_of_current hadds.current,
          hadds.get?_apart hw hy List.prefix_rfl]
      have hplaces : places t₁ rest = places t rest := by
        simp only [places, normalize_of_current hadds.current]
      rw [writeEach_of_ok hwrite]
      rcases ih hclosed₁ hnamed.2 (hw.after hadds) with
        ⟨hall, t₂, heach, hadds₂⟩ | ⟨⟨y, hy, hnot⟩, hfails⟩
      · rw [hplaces] at hadds₂
        refine .inl ⟨List.forall_mem_cons.2 ⟨hvacant, fun y hy => (hsame y hy).1 (hall y hy)⟩,
          t₂, ?_, hadds.cons hadds₂ ?_⟩
        · rw [heach, List.map_cons]
        · intro y hy
          obtain ⟨z, hz, rfl⟩ := List.mem_map.1 hy
          exact (List.pairwise_cons.1 hw.apart).1 z hz
      · exact .inr ⟨⟨y, List.mem_cons_of_mem _ hy, fun h => hnot ((hsame y hy).2 h)⟩, hfails⟩
    | failed f hcause =>
      refine .inr ⟨⟨x, List.mem_cons_self, ?_⟩, ?_⟩
      · exact hcause.resolve_right (hw.reachable _ List.mem_cons_self)
      · rw [writeEach, hwrite]
        simp

/-! ## Files below an output directory -/

theorem named_ofText (text : String) : "" ∉ (Path.ofText text).parts := by
  simp [Path.ofText, Path.partsOf]

/-- The paths at which the files of a target are written, with their contents. -/
def targetsBelow (outDir : String) (files : List RenderedFile) : List (Path × String) :=
  files.map fun f => ((Path.ofText outDir).join (Path.ofText f.path), f.content)

theorem named_targetsBelow {outDir : String} {files : List RenderedFile} :
    ∀ x ∈ targetsBelow outDir files, "" ∉ x.1.parts := by
  intro x hx
  obtain ⟨f, -, rfl⟩ := List.mem_map.1 hx
  rw [Path.join]
  split_ifs
  · exact named_ofText f.path
  · exact List.not_mem_append (named_ofText outDir) (named_ofText f.path)

/-- What comes of writing files that can be written side by side. -/
structure WritesExactly (t : Tree) (force : Bool) (targets : List (Path × String))
    (w : Written) : Prop where
  refused : force = false →
    ((∃ text, w.failure = some (.fileExists text)) ↔ ∃ x ∈ targets, t.find? x.1 ≠ none)
  unchanged : force = false → (∃ x ∈ targets, t.find? x.1 ≠ none) → w.tree = t
  succeeds : (∀ x ∈ targets, t.find? x.1 ≠ some .directory) →
    (force = false → ∀ x ∈ targets, t.find? x.1 = none) → w.failure = none
  written : w.failure = none →
    w.paths = targets.map Prod.fst ∧ AddsExactly (places t targets) t w.tree

theorem Writable.find?_eq (hclosed : t.Closed) (hw : Writable t targets) (hx : x ∈ targets) :
    t.find? x.1 = t.get? (t.normalize x.1) :=
  Files.find?_eq hclosed (hw.onward x hx) (hw.fits x hx).accepted.1

/-- Once no file is in the way, or overwriting is on, the files are written one by one. -/
theorem writesExactly_writeEach (hclosed : t.Closed) (hnamed : ∀ x ∈ targets, "" ∉ x.1.parts)
    (hw : Writable t targets) (hfree : force = false → ∀ x ∈ targets, t.find? x.1 = none) :
    WritesExactly t force targets (writeEach t force targets) := by
  have hvacant : (∀ x ∈ targets, t.find? x.1 ≠ some .directory) →
      ∀ x ∈ targets, Vacant t force (t.normalize x.1) := by
    intro hdir x hx
    rw [Vacant, ← hw.find?_eq hclosed hx]
    exact ⟨hdir x hx, fun hforce => hfree hforce x hx⟩
  have hnone : force = false → ∀ x ∈ targets, t.find? x.1 ≠ some .directory := by
    intro hforce x hx
    rw [hfree hforce x hx]
    simp
  have hfound : force = false → ¬ ∃ x ∈ targets, t.find? x.1 ≠ none := by
    rintro hforce ⟨x, hx, hsome⟩
    exact hsome (hfree hforce x hx)
  rcases writeEach_exact hclosed hnamed hw force with
    ⟨-, t', heach, hadds⟩ | ⟨⟨x, hx, hnot⟩, hfails⟩
  · rw [heach]
    refine ⟨fun hforce => ?_, fun hforce h => absurd h (hfound hforce), fun _ _ => rfl,
      fun _ => ⟨rfl, hadds⟩⟩
    exact iff_of_false (by simp) (hfound hforce)
  · refine ⟨fun hforce => ?_, fun hforce h => absurd h (hfound hforce), fun hdir _ => ?_,
      fun h => absurd h hfails⟩
    · exact absurd (hvacant (hnone hforce) x hx) hnot
    · exact absurd (hvacant hdir x hx) hnot

theorem writesExactly_writeAll {outDir : String} {files : List RenderedFile} (hclosed : t.Closed)
    (hw : Writable t (targetsBelow outDir files)) :
    WritesExactly t force (targetsBelow outDir files) (writeAll t force outDir files) := by
  cases force with
  | true => exact writesExactly_writeEach hclosed named_targetsBelow hw (by simp)
  | false =>
    simp only [writeAll, Bool.false_eq_true, if_false]
    rw [← targetsBelow]
    rcases firstOccupied_cases t ((targetsBelow outDir files).map Prod.fst) with
      ⟨p, hp, hlong, -⟩ | ⟨p, hp, htaken, hfirst⟩ | ⟨hfree, hfirst⟩
    · obtain ⟨x, hx, rfl⟩ := List.mem_map.1 hp
      exact absurd hlong (hw.fits x hx).accepted.1
    · obtain ⟨x, hx, rfl⟩ := List.mem_map.1 hp
      have hfound : ∃ x ∈ targetsBelow outDir files, t.find? x.1 ≠ none :=
        ⟨x, hx, (contains_eq_true.1 htaken).2⟩
      rw [hfirst]
      refine ⟨fun _ => iff_of_true ⟨_, rfl⟩ hfound, fun _ _ => rfl, fun _ hnone => ?_, by simp⟩
      exact absurd (hnone rfl x hx) (contains_eq_true.1 htaken).2
    · rw [hfirst]
      refine writesExactly_writeEach hclosed named_targetsBelow hw fun _ x hx => ?_
      by_contra hsome
      have htaken := contains_eq_true.2 ⟨(hw.fits x hx).accepted.2, hsome⟩
      rw [hfree _ (List.mem_map.2 ⟨x, hx, rfl⟩)] at htaken
      cases htaken

theorem accepted_rootFor (n : Nat) : ¬ TooLong ⟨Path.rootFor n, []⟩ ∧
    isPassable (Path.text ⟨Path.rootFor n, []⟩) = true := by
  have hroot : ∀ root ∈ ["", "/", "//"], ¬ TooLong ⟨root, []⟩ ∧
      isPassable (Path.text ⟨root, []⟩) = true := by
    simp [TooLong]
    decide
  refine hroot _ ?_
  unfold Path.rootFor
  split <;> simp

theorem writesOne_write {text : String} (hclosed : t.Closed)
    (honward : ".." ∉ (Path.ofText text).parts) (force : Bool) (content : String) :
    WritesOne t (.ofText text) content (write t force (.ofText text) content) := by
  rcases (Path.ofText text).eq_start_or_child with hstart | hchild
  · obtain ⟨hshort, hpassable⟩ := accepted_rootFor (text.toList.takeWhile (· = '/')).length
    obtain ⟨f, hwrite⟩ := write_start hclosed hshort hpassable force content
    rw [hstart, show (Path.ofText text).root = Path.rootFor _ from rfl, hwrite]
    exact .unchanged f
  · have hstraight : (Path.ofText text).Straight := ⟨named_ofText text, honward⟩
    rw [hchild] at hstraight ⊢
    exact writesOne_child hclosed hstraight force content

/-- A tree with a file to be overwritten, and one to be left alone. -/
def workTree : Tree where
  current := ["work"]
  entries := [(["work"], .directory), (["work", "out"], .directory),
    (["work", "out", "a.ts"], .file "old"), (["work", "note"], .file "kept")]

/-- Two of the files share a directory that is missing. -/
def workFiles : List RenderedFile :=
  [⟨"a.ts", "new"⟩, ⟨"sub/b.ts", "b"⟩, ⟨"./sub//c.ts", "c"⟩]

end Typegen.Files
