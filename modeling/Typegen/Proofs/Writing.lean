import Mathlib.Tactic.MkIffOfInductiveProp
import Typegen.Proofs.Temporaries

/-!
# Writing the files of a target

The files of a target lie in one directory and have different names.  They are written all, or none
of them is because something stands in the way, unless one of them is hidden until the directory has
been made.  What else can happen is a failure that leaves the files written before it in place.
-/

namespace Typegen.Files

open Target (RenderedFile)
open Typegen.Files.Tree

variable {t t' : Tree} {l : Location} {dir p : Path} {content name : String} {force : Bool}
  {files : List (Location × String)} {dirs : List Location}

/-- A name that is a path by itself, and leads to an entry of the directory it is in. -/
def IsName (text : String) : Prop := Path.ofText text = ⟨"", [text]⟩ ∧ text ≠ ".."

theorem IsName.join (h : IsName name) (dir : Path) :
    dir.join (Path.ofText name) = dir.child name := by
  rw [h.1]
  simp [Path.join, Path.isAbsolute, Path.child]

theorem IsName.ne_empty (h : IsName name) : name ≠ "" := by
  rintro rfl
  have hparts : Path.ofText "" = ⟨"", []⟩ := by with_unfolding_all rfl
  have h := h.1
  rw [hparts] at h
  cases h

/-! ## Looking up a file -/

theorem contains_eq_error {f : Failure} (h : t.contains p = .error f) :
    f = .nameTooLong ∧ TooLong p := by
  unfold contains at h
  by_cases hpassable : isPassable p.text
  · simp only [hpassable, Bool.not_true, Bool.false_eq_true, if_false] at h
    split at h
    · cases h
    · next hlocate =>
      rcases locate_eq_error hlocate with ⟨-, hlong⟩ | ⟨q, part, rest, -, hstops⟩
      · exact ⟨(Except.error.inj h).symm, hlong⟩
      · generalize t.get? _ = e at hstops
        cases hstops
    · cases h
  · simp [hpassable] at h

theorem contains_eq_true :
    t.contains p = .ok true ↔ isPassable p.text = true ∧ t.find? p ≠ none := by
  unfold contains find?
  by_cases hpassable : isPassable p.text
  · simp only [hpassable, Bool.not_true, Bool.false_eq_true, if_false, true_and]
    rcases t.locate p with (_ | _ | _ | _) | l <;> simp [Option.isSome_iff_ne_none]
  · simp [hpassable]

theorem Tree.Changes.contains (h : Changes files dirs t t') (hp : t.contains p = .ok true) :
    t'.contains p = .ok true := by
  obtain ⟨hpassable, hfind⟩ := contains_eq_true.1 hp
  refine contains_eq_true.2 ⟨hpassable, ?_⟩
  obtain ⟨e, he⟩ := Option.ne_none_iff_exists'.1 hfind
  obtain ⟨hlocate, hget⟩ := find?_eq_some.1 he
  obtain ⟨e', he'⟩ := Option.ne_none_iff_exists'.1 (h.get?_ne_none (by rw [hget]; simp))
  rw [← h.normalize] at hlocate he'
  rw [find?_eq_some.2 ⟨h.locate hlocate, he'⟩]
  simp

/-- A file is hidden in a directory if it is found only once the directory has been made: the path
steps back out of a directory that is missing. -/
def Hidden (t : Tree) (dir : Path) (name : String) : Prop :=
  t.contains (dir.child name) = .ok false ∧
    (t.makeDirectories dir).1.contains (dir.child name) = .ok true

instance (x : Except Failure Bool) (b : Bool) : Decidable (x = .ok b) :=
  match x with
  | .ok c => decidable_of_iff (c = b) (by simp)
  | .error _ => isFalse (by simp)

instance (t : Tree) (dir : Path) (name : String) : Decidable (Hidden t dir name) :=
  inferInstanceAs (Decidable (_ ∧ _))

/-! ## One file -/

/-- The system accepts a path: it can be passed on, and it is short enough, also under the temporary
name of the file. -/
@[mk_iff]
structure Fits (t : Tree) (dir : Path) (name : String) : Prop where
  passable : isPassable dir.text = true ∧ isPassable (dir.child name).text = true
  short : ¬ TooLong (dir.child name)
  temporary : name.utf8ByteSize + temporaryBytes ≤ maxNameBytes ∧
    temporaryPathBytes t (dir.child name) ≤ maxPathBytes

instance (t : Tree) (dir : Path) (name : String) : Decidable (Fits t dir name) :=
  decidable_of_iff _ (fits_iff t dir name).symm

theorem Fits.not_tooLong (h : Fits t dir name) : ¬ TooLong dir :=
  fun hlong => h.short (hlong.of_front (List.prefix_append _ _) rfl)

theorem Tree.Changes.temporaryPathBytes (h : Changes files dirs t t') (p : Path) :
    temporaryPathBytes t' p = temporaryPathBytes t p := by
  simp only [Files.temporaryPathBytes, h.normalize]

theorem Tree.Changes.fits (h : Changes files dirs t t') (hfits : Fits t dir name) :
    Fits t' dir name := by
  refine ⟨hfits.passable, hfits.short, ?_⟩
  rw [h.temporaryPathBytes]
  exact hfits.temporary

/-- What comes of writing one file in a directory. -/
inductive WritesFile (t : Tree) (force : Bool) (dir : Path) (name content : String) :
    Tree × Except Failure Unit → Prop
  | written {t' : Tree} (hmake : t.makeDirectories dir = (t', .ok ()))
      (hlocate : t'.locate (dir.child name) = .ok (t.normalize dir ++ [name]))
      (hget : t'.get? (t.normalize dir ++ [name]) ≠ some .directory) :
      WritesFile t force dir name content
        (t'.set (t.normalize dir ++ [name]) (.file content), .ok ())
  | taken (f : Failure) (hforce : force = false) (hfound : t.contains (dir.child name) = .ok true) :
      WritesFile t force dir name content (t, .error f)
  | blocked {t' : Tree} (f : Failure) (hclosed : t'.Closed)
      (hchanges : Changes [] (t.trail dir) t t') (hblocked : t.Blocked dir) :
      WritesFile t force dir name content (t', .error f)
  | broken {t' : Tree} {f : Failure} (hclosed : t'.Closed)
      (hchanges : Changes [] (t.trail dir) t t') (hway : ¬ InTheWay f)
      (hcause : ¬ Fits t dir name ∨
        (t.makeDirectories dir).1.find? (dir.child name) = some .directory) :
      WritesFile t force dir name content (t', .error f)

/-- A file is put in its directory once that has been made. -/
theorem writesFile_place (hclosed : t.Closed) (hempty : name ≠ "") (hdots : name ≠ "..")
    (hmake : t.makeDirectories dir = (t', .ok ())) :
    WritesFile t force dir name content (place t' (dir.child name) content) := by
  have hdir := makesDirectories_makeDirectories hclosed dir
  rw [hmake] at hdir
  have hlocation : t'.normalize (dir.child name) = t.normalize dir ++ [name] := by
    rw [normalize_child hdots, hdir.changes.normalize]
  have hunfit : ∀ {f : Failure}, ¬ InTheWay f → ¬ Fits t dir name →
      WritesFile t force dir name content (t', .error f) :=
    fun hway hfits => .broken hdir.closed hdir.changes hway (.inl hfits)
  unfold place
  rw [hdir.changes.temporaryPathBytes, Path.name_child]
  split_ifs with hpassable hlong hlongPath
  · exact hunfit (by rintro ⟨⟩) fun hfits => by simp [hfits.passable.2] at hpassable
  · exact hunfit (by rintro ⟨⟩) fun hfits => absurd hfits.temporary.1 (Nat.not_le.2 hlong)
  · exact hunfit (by rintro ⟨⟩) fun hfits => absurd hfits.temporary.2 (Nat.not_le.2 hlongPath)
  · rcases hlocate : t'.locate (dir.child name) with o | l
    · obtain ⟨rfl, htooLong⟩ := tooLong_of_locate (hdir.present rfl) hlocate
      rw [writeThrough_of_error hempty hdots (hdir.present rfl) hlocate]
      exact hunfit (by rintro ⟨⟩) fun hfits => hfits.short htooLong
    · obtain rfl := normalize_of_locate hlocate
      by_cases hget : t'.get? (t'.normalize (dir.child name)) = some .directory
      · rw [writeThrough_of_directory hempty hdots (hdir.present rfl) hlocate hget]
        refine .broken hdir.closed hdir.changes (by rintro ⟨⟩) (.inr ?_)
        rw [hmake]
        exact find?_eq_some.2 ⟨hlocate, hget⟩
      · rw [writeThrough_of_ok hempty hdots (hdir.present rfl) hlocate hget]
        rw [hlocation] at hlocate hget ⊢
        exact .written hmake hlocate hget

theorem writesFile_write (hclosed : t.Closed) (hempty : name ≠ "") (hdots : name ≠ "..") :
    WritesFile t force dir name content (write t force (dir.child name) content) := by
  unfold write
  rw [Path.parent_child]
  split
  · next f hf =>
    obtain ⟨rfl, hlong⟩ := contains_eq_error hf
    exact .broken hclosed (.refl t) (by rintro ⟨⟩) (.inl fun hfits => hfits.short hlong)
  · next taken htaken =>
    split_ifs with hrefused hpassable
    · obtain ⟨rfl, hforce⟩ : taken = true ∧ force = false := by simpa using hrefused
      exact .taken _ hforce htaken
    · refine .broken hclosed (.refl t) (by rintro ⟨⟩) (.inl fun hfits => ?_)
      simp [hfits.passable.1] at hpassable
    · split
      · next t₁ f hmake =>
        have hdir := makesDirectories_makeDirectories hclosed dir
        rw [hmake] at hdir
        rcases hdir.failed f rfl with hblocked | ⟨hway, hlong⟩
        · exact .blocked f hdir.closed hdir.changes hblocked
        · exact .broken hdir.closed hdir.changes hway (.inl fun hfits => hfits.not_tooLong hlong)
      · next t₁ hmake => exact writesFile_place hclosed hempty hdots hmake

/-! ## All files -/

/-- Where files of a directory lie, with their contents. -/
def locations (t : Tree) (dir : Path) (files : List RenderedFile) : List (Location × String) :=
  files.map fun f => (t.normalize dir ++ [f.path], f.content)

/-- Why the writing of some files breaks off: the system does not accept one of them, a file is
where their directory needs one, or with overwriting on there is a directory in the place of one. -/
inductive Broken (t : Tree) (force : Bool) (dir : Path) (files : List RenderedFile) : Prop
  | unfit {f : RenderedFile} (hf : f ∈ files) (hfits : ¬ Fits t dir f.path)
  | blocked (hblocked : t.Blocked dir)
  | directory (hforce : force = true) {f : RenderedFile} (hf : f ∈ files)
      (hfind : (t.makeDirectories dir).1.find? (dir.child f.path) = some .directory)

/-- What comes of writing some files in a directory. -/
structure WritesFiles (t : Tree) (force : Bool) (dir : Path) (files : List RenderedFile)
    (w : Written) : Prop where
  closed : w.tree.Closed
  changes : Changes (locations t dir files) (t.trail dir) t w.tree
  present : w.failure = none →
    ∀ f ∈ files, w.tree.find? (dir.child f.path) = some (.file f.content)
  refused : ∀ f, w.failure = some f → InTheWay f →
    Changes [] (t.trail dir) t w.tree ∧ t.Blocked dir
  broken : ∀ f, w.failure = some f → ¬ InTheWay f → Broken t force dir files

/-- Nothing is written when the first file is not. -/
theorem writesFiles_failed {files : List RenderedFile} {f : Failure} (hclosed : t'.Closed)
    (hchanges : Changes [] (t.trail dir) t t') (hway : InTheWay f → t.Blocked dir)
    (hbroken : ¬ InTheWay f → Broken t force dir files) :
    WritesFiles t force dir files ⟨t', [], some f⟩ where
  closed := hclosed
  changes := hchanges.mono (List.nil_subset _) (List.Subset.refl _)
  present := by simp
  refused := by
    rintro _ ⟨⟩ h
    exact ⟨hchanges, hway h⟩
  broken := by
    rintro _ ⟨⟩ h
    exact hbroken h

/-- What is found under another name when a file has been put in a directory was there before. -/
theorem find?_of_set {other : String} {e : Entry} (hother : other ≠ "..") (hne : other ≠ name)
    (hdir : t.find? dir = some .directory)
    (hget : t.get? (t.normalize dir ++ [name]) ≠ some .directory)
    (h : (t.set (t.normalize dir ++ [name]) (.file content)).find? (dir.child other) = some e) :
    t.find? (dir.child other) = some e := by
  have hfile : Changes [(t.normalize dir ++ [name], content)] [] t _ := changes_set_file hget
  obtain ⟨hlocate, hget'⟩ := find?_eq_some.1 h
  rw [hfile.normalize, normalize_child hother] at hlocate hget'
  rw [get?_set hget, if_neg (by simpa using hne)] at hget'
  rw [find?_eq_some, normalize_child hother]
  exact ⟨hfile.locate_child hdir hlocate, hget'⟩

/-- The other files are written after the first. -/
theorem writesFiles_cons {f : RenderedFile} {rest : List RenderedFile} {w : Written}
    (hclosed : t.Closed) (hnames : ∀ g ∈ f :: rest, IsName g.path)
    (hnotMem : f.path ∉ rest.map (·.path)) (hmake : t.makeDirectories dir = (t', .ok ()))
    (hlocate : t'.locate (dir.child f.path) = .ok (t.normalize dir ++ [f.path]))
    (hget : t'.get? (t.normalize dir ++ [f.path]) ≠ some .directory)
    (hrest : WritesFiles (t'.set (t.normalize dir ++ [f.path]) (.file f.content)) force dir
      rest w) :
    WritesFiles t force dir (f :: rest) w := by
  obtain ⟨hname, hrestNames⟩ := List.forall_mem_cons.1 hnames
  have hdir := makesDirectories_makeDirectories hclosed dir
  rw [hmake] at hdir
  have hfile : Changes [(t.normalize dir ++ [f.path], f.content)] (t.trail dir) t' _ :=
    changes_set_file hget
  have hboth := (hdir.changes.mono (List.nil_subset _) (List.Subset.refl _)).trans hfile
  have hpresent : (t'.set (t.normalize dir ++ [f.path]) (.file f.content)).find?
      (dir.child f.path) = some (.file f.content) := by
    rw [find?_eq_some, hboth.normalize, normalize_child hname.2, get?_set hget, if_pos rfl]
    exact ⟨hfile.locate hlocate, rfl⟩
  have hmade := hfile.find?_directory (hdir.present rfl)
  have hchanges := hrest.changes
  rw [locations, hboth.normalize, hboth.trail] at hchanges
  refine ⟨hrest.closed, ?_, fun hnone g hg => ?_, fun e heq hway => ?_, fun e heq hway => ?_⟩
  · exact (hboth.mono (by simp [locations]) (List.Subset.refl _)).trans
      (hchanges.mono (List.subset_cons_self _ _) (List.Subset.refl _))
  · rcases List.mem_cons.1 hg with rfl | hg
    · refine hchanges.find?_file hpresent fun other hmem => hnotMem ?_
      rw [hboth.normalize, normalize_child hname.2, List.mem_map] at hmem
      obtain ⟨h, hh, heq⟩ := hmem
      obtain ⟨hpath, -⟩ : h.path = g.path ∧ h.content = other := by simpa using heq
      exact List.mem_map.2 ⟨h, hh, hpath⟩
    · exact hrest.present hnone g hg
  · exact absurd (hrest.refused e heq hway).2 (not_blocked hmade)
  · cases hrest.broken e heq hway with
    | unfit hg hfits =>
      exact .unfit (List.mem_cons_of_mem f hg) fun h => hfits (hboth.fits h)
    | blocked hblocked => exact absurd hblocked (not_blocked hmade)
    | @directory hforce g hg hfind =>
      refine .directory hforce (List.mem_cons_of_mem f hg) ?_
      have hne : g.path ≠ f.path := fun heq => hnotMem (List.mem_map.2 ⟨g, hg, heq⟩)
      rw [makeDirectories_of_directory hmade] at hfind
      rw [hmake]
      rw [← hdir.changes.normalize] at hget hfind
      exact find?_of_set (hrestNames g hg).2 hne (hdir.present rfl) hget hfind

theorem writesFiles_writeEach {files : List RenderedFile} (hclosed : t.Closed)
    (hnames : ∀ f ∈ files, IsName f.path) (hnodup : (files.map (·.path)).Nodup)
    (hfree : force = false →
      ∀ f ∈ files, (t.makeDirectories dir).1.contains (dir.child f.path) ≠ .ok true) :
    WritesFiles t force dir files
      (writeEach t force (files.map fun f => (dir.child f.path, f.content))) := by
  induction files generalizing t with
  | nil => exact ⟨hclosed, .refl t, by simp, by simp [writeEach], by simp [writeEach]⟩
  | cons f rest ih =>
    rw [List.map_cons, List.nodup_cons] at hnodup
    obtain ⟨hname, hrestNames⟩ := List.forall_mem_cons.1 hnames
    have hdir := makesDirectories_makeDirectories hclosed dir
    have hfile : WritesFile t force dir f.path f.content _ :=
      writesFile_write hclosed hname.ne_empty hname.2
    rw [List.map_cons, writeEach]
    generalize write t force (dir.child f.path) f.content = r at hfile
    cases hfile with
    | @written t₁ hmake hlocate hget =>
      rw [hmake] at hdir hfree
      refine writesFiles_cons hclosed hnames hnodup.1 hmake hlocate hget ?_
      have hrest := ih (t := t₁.set (t.normalize dir ++ [f.path]) (.file f.content))
        (hdir.closed.set hget (get?_parent_of_locate hdir.closed hlocate) _) hrestNames hnodup.2 ?_
      · exact ⟨hrest.closed, hrest.changes, hrest.present, hrest.refused, hrest.broken⟩
      · intro hforce g hg hfound
        have hfile : Changes [(t.normalize dir ++ [f.path], f.content)] [] t₁ _ :=
          changes_set_file hget
        rw [makeDirectories_of_directory (hfile.find?_directory (hdir.present rfl))] at hfound
        obtain ⟨hpassable, hfind⟩ := contains_eq_true.1 hfound
        obtain ⟨e, he⟩ := Option.ne_none_iff_exists'.1 hfind
        rw [← hdir.changes.normalize] at hget he
        have hbefore := find?_of_set (hrestNames g hg).2
          (fun heq => hnodup.1 (List.mem_map.2 ⟨g, hg, heq⟩)) (hdir.present rfl) hget he
        exact hfree hforce g (List.mem_cons_of_mem f hg)
          (contains_eq_true.2 ⟨hpassable, by rw [hbefore]; simp⟩)
    | taken e hforce hfound =>
      exact absurd (hdir.changes.contains hfound) (hfree hforce f List.mem_cons_self)
    | blocked e hclosed' hchanges hblocked =>
      exact writesFiles_failed hclosed' hchanges (fun _ => hblocked) fun _ => .blocked hblocked
    | broken hclosed' hchanges hway hcause =>
      refine writesFiles_failed hclosed' hchanges (fun h => absurd h hway) fun _ => ?_
      by_cases hfits : Fits t dir f.path
      · have hfind := hcause.resolve_left (not_not_intro hfits)
        refine .directory ?_ List.mem_cons_self hfind
        -- With overwriting off nothing is in the place of a file.
        by_contra hforce
        refine hfree (by simpa using hforce) f List.mem_cons_self ?_
        exact contains_eq_true.2 ⟨hfits.passable.2, by rw [hfind]; simp⟩
      · exact .unfit List.mem_cons_self hfits

/-! ## Files of a target -/

theorem firstOccupied_cases (t : Tree) (ps : List Path) :
    (∃ p ∈ ps, TooLong p ∧ firstOccupied t ps = .error .nameTooLong) ∨
      (∃ p ∈ ps, t.contains p = .ok true ∧ firstOccupied t ps = .ok (some p)) ∨
      ((∀ p ∈ ps, t.contains p = .ok false) ∧ firstOccupied t ps = .ok none) := by
  induction ps with
  | nil => exact .inr (.inr ⟨by simp, rfl⟩)
  | cons p rest ih =>
    rcases hp : t.contains p with f | taken
    · obtain ⟨rfl, hlong⟩ := contains_eq_error hp
      refine .inl ⟨p, List.mem_cons_self, hlong, ?_⟩
      rw [firstOccupied, hp]
      rfl
    · have hstep : firstOccupied t (p :: rest) =
          if taken then .ok (some p) else firstOccupied t rest := by
        rw [firstOccupied, hp]
        rfl
      rw [hstep]
      cases taken with
      | true => exact .inr (.inl ⟨p, List.mem_cons_self, hp, rfl⟩)
      | false =>
        rcases ih with ⟨q, hq, hlong, hfirst⟩ | ⟨q, hq, htaken, hfirst⟩ | ⟨hall, hfirst⟩
        · exact .inl ⟨q, List.mem_cons_of_mem _ hq, hlong, hfirst⟩
        · exact .inr (.inl ⟨q, List.mem_cons_of_mem _ hq, htaken, hfirst⟩)
        · exact .inr (.inr ⟨List.forall_mem_cons.2 ⟨hp, hall⟩, hfirst⟩)

/-- Why the files of a target are not written: with overwriting off one of them is there already, or
a file is where their directory needs one. -/
inductive Refused (t : Tree) (force : Bool) (dir : Path) (files : List RenderedFile) : Prop
  | exists (hforce : force = false) {f : RenderedFile} (hf : f ∈ files)
      (hfind : t.find? (dir.child f.path) ≠ none)
  | blocked (h : t.Blocked dir)

/-- What comes of writing the files of a target. -/
structure WritesTarget (t : Tree) (force : Bool) (dir : Path) (files : List RenderedFile)
    (w : Written) : Prop where
  closed : w.tree.Closed
  changes : Changes (locations t dir files) (t.trail dir) t w.tree
  present : w.failure = none →
    ∀ f ∈ files, w.tree.find? (dir.child f.path) = some (.file f.content)
  refused : ∀ f, w.failure = some f → InTheWay f →
    Changes [] (t.trail dir) t w.tree ∧ Refused t force dir files
  broken : ∀ f, w.failure = some f → ¬ InTheWay f → Broken t force dir files

/-- The paths under which the files of a target are written. -/
theorem targets_eq {files : List RenderedFile} (hnames : ∀ f ∈ files, IsName f.path)
    (outDir : String) :
    (files.map fun f => ((Path.ofText outDir).join (Path.ofText f.path), f.content)) =
      files.map fun f => ((Path.ofText outDir).child f.path, f.content) :=
  List.map_congr_left fun f hf => by rw [(hnames f hf).join]

theorem writesTarget_writeAll {files : List RenderedFile} {outDir : String} (hclosed : t.Closed)
    (hnames : ∀ f ∈ files, IsName f.path) (hnodup : (files.map (·.path)).Nodup)
    (hseen : force = false → ∀ f ∈ files, ¬ Hidden t (.ofText outDir) f.path) :
    WritesTarget t force (.ofText outDir) files (writeAll t force outDir files) := by
  have hlooked : ∀ p ∈ (if force then [] else files.map fun f => (Path.ofText outDir).child f.path),
      force = false ∧ ∃ f ∈ files, (Path.ofText outDir).child f.path = p := by
    intro p hp
    cases force with
    | true => simp at hp
    | false => exact ⟨rfl, List.mem_map.1 hp⟩
  have hpaths : (files.map fun f => ((Path.ofText outDir).child f.path, f.content)).map Prod.fst =
      files.map fun f => (Path.ofText outDir).child f.path := List.map_map
  simp only [writeAll, targets_eq hnames, hpaths]
  rcases firstOccupied_cases t
      (if force then [] else files.map fun f => (Path.ofText outDir).child f.path) with
    ⟨p, hp, hlong, hfirst⟩ | ⟨p, hp, htaken, hfirst⟩ | ⟨hfree, hfirst⟩
  · rw [hfirst]
    obtain ⟨-, g, hg, rfl⟩ := hlooked p hp
    refine ⟨hclosed, .refl t, by simp, ?_, fun _ _ _ => .unfit hg fun hfits => hfits.short hlong⟩
    rintro _ ⟨⟩ hway
    cases hway
  · rw [hfirst]
    obtain ⟨hforce, g, hg, rfl⟩ := hlooked p hp
    refine ⟨hclosed, .refl t, by simp, fun f heq hway => ⟨.refl t, ?_⟩, ?_⟩
    · exact .exists hforce hg (contains_eq_true.1 htaken).2
    · rintro _ ⟨⟩ hway
      exact absurd (.file _) hway
  · rw [hfirst]
    have hwrites : WritesFiles t force (.ofText outDir) files _ :=
      writesFiles_writeEach hclosed hnames hnodup fun hforce f hf hfound =>
        hseen hforce f hf ⟨hfree _ (by rw [hforce]; exact List.mem_map.2 ⟨f, hf, rfl⟩), hfound⟩
    exact ⟨hwrites.closed, hwrites.changes, hwrites.present, fun f heq hway =>
      ⟨(hwrites.refused f heq hway).1, .blocked (hwrites.refused f heq hway).2⟩, hwrites.broken⟩

end Typegen.Files
