import Mathlib.Data.List.Infix
import Typegen.Files.Tree
import Typegen.Proofs.Keys
import Typegen.Proofs.Outcome

/-!
# Paths and directories in a file tree

A path leads along a trail of locations, one for each of its front parts.  In a tree in which
everything lies in a directory (`Tree.Closed`), making the directory at a path adds missing
directories on its trail and changes nothing else.
-/

namespace Typegen.Files.Tree

variable {t t' : Tree} {l k : Location} {p : Path}

/-! ## Entries -/

theorem lookup_setEntry (l k : Location) (e : Entry) (es : List (Location × Entry)) :
    (setEntry l e es).lookup k = if k = l then some e else es.lookup k := by
  induction es with
  | nil => rw [setEntry, lookup_cons_eq]
  | cons entry rest ih =>
    obtain ⟨j, old⟩ := entry
    rw [setEntry, lookup_cons_eq]
    split
    · next hj =>
      rw [lookup_cons_eq, hj]
      split <;> rfl
    · next hj =>
      rw [lookup_cons_eq, ih]
      by_cases h : k = j
      · rw [if_pos h, if_pos h, if_neg (h ▸ hj)]
      · rw [if_neg h, if_neg h]

theorem get?_current (t : Tree) : t.get? t.current = some .directory := by
  simp [get?]

theorem get?_nil (t : Tree) : t.get? [] = some .directory := by
  simp [get?]

/-- A location that is no directory yet can be given an entry, and no other location changes. -/
theorem get?_set (h : t.get? l ≠ some .directory) (e : Entry) (k : Location) :
    (t.set l e).get? k = if k = l then some e else t.get? k := by
  have hl : ¬ l.isPrefixOf t.current := fun hl => h (if_pos hl)
  unfold get? set
  rw [lookup_setEntry]
  by_cases hk : k = l
  · rw [if_pos hk, if_pos hk, if_neg (hk ▸ hl)]
  · rw [if_neg hk, if_neg hk]

/-- Whatever exists lies in a directory. -/
def Closed (t : Tree) : Prop := ∀ l, t.get? l ≠ none → t.get? l.dropLast = some .directory

/-- Only what the tree lists has to be looked at. -/
theorem closed_iff : t.Closed ↔ ∀ e ∈ t.entries, t.get? e.1.dropLast = some .directory := by
  constructor
  · intro h e he
    refine h e.1 ?_
    unfold get?
    split_ifs
    · simp
    · obtain ⟨found, hfound⟩ := exists_lookup_of_mem_keys (List.mem_map_of_mem he)
      rw [hfound]
      simp
  · intro h l hl
    by_cases hcurrent : l.isPrefixOf t.current
    · have habove : l.dropLast <+: t.current :=
        (List.dropLast_prefix l).trans (List.isPrefixOf_iff_prefix.1 hcurrent)
      exact if_pos (List.isPrefixOf_iff_prefix.2 habove)
    · rw [get?, if_neg hcurrent] at hl
      obtain ⟨e, he⟩ := Option.ne_none_iff_exists'.1 hl
      exact h (l, e) (mem_of_lookup he)

instance (t : Tree) : Decidable t.Closed := decidable_of_iff _ closed_iff.symm

theorem Closed.set (h : t.Closed) (hl : t.get? l ≠ some .directory)
    (hparent : t.get? l.dropLast = some .directory) (e : Entry) : (t.set l e).Closed := by
  have hne : l.dropLast ≠ l := fun heq => hl (heq ▸ hparent)
  intro k hk
  rw [get?_set hl] at hk ⊢
  by_cases hkl : k = l
  · rw [hkl, if_neg hne]
    exact hparent
  · rw [if_neg hkl] at hk
    have hdir := h k hk
    have hne' : k.dropLast ≠ l := fun heq => hl (heq ▸ hdir)
    rw [if_neg hne']
    exact hdir

/-! ## Following paths -/

/-- Where a part of a path leads. -/
def follow (l : Location) (part : String) : Location :=
  if part = ".." then l.dropLast else l ++ [part]

/-- Where a path starts. -/
def start (t : Tree) (p : Path) : Location := if p.isAbsolute then [] else t.current

theorem normalize_eq (t : Tree) (p : Path) : t.normalize p = p.parts.foldl follow (t.start p) := rfl

theorem get?_start (t : Tree) (p : Path) : t.get? (t.start p) = some .directory := by
  unfold start
  split
  · exact t.get?_nil
  · exact t.get?_current

variable {o : Obstacle} {part root : String} {q : List String}

theorem step_eq_ok : t.step l part = .ok k ↔
    t.get? l = some .directory ∧ part.utf8ByteSize ≤ maxNameBytes ∧ k = follow l part := by
  unfold step
  rcases t.get? l with _ | _ | _
  · simp
  · simp
  · by_cases hlong : maxNameBytes < part.utf8ByteSize
    · simp [hlong, Nat.not_le.2 hlong]
    · simp [hlong, follow, Nat.not_lt.1 hlong, eq_comm]

/-- What is found where a path cannot go on. -/
inductive Stops : Option Entry → Obstacle → Prop
  | missing : Stops none .missing
  | notDirectory (content : String) : Stops (some (.file content)) .notDirectory

theorem step_eq_error (h : t.step l part = .error o) :
    (o = .tooLong ∧ maxNameBytes < part.utf8ByteSize) ∨ Stops (t.get? l) o := by
  unfold step at h
  split at h
  · split_ifs at h with hlong
    exact .inl ⟨(Except.error.inj h).symm, hlong⟩
  · next content hfile =>
    rw [hfile, ← Except.error.inj h]
    exact .inr (.notDirectory content)
  · next hnone =>
    rw [hnone, ← Except.error.inj h]
    exact .inr .missing

theorem foldlM_step_eq_ok {parts : List String} : parts.foldlM t.step l = .ok k ↔
    k = parts.foldl follow l ∧ ∀ q part rest, parts = q ++ part :: rest →
      t.get? (q.foldl follow l) = some .directory ∧ part.utf8ByteSize ≤ maxNameBytes := by
  induction parts generalizing l with
  | nil => simp [pure, Except.pure, eq_comm]
  | cons part rest ih =>
    rw [List.foldlM_cons, bind_eq_ok]
    constructor
    · rintro ⟨l', hstep, hrest⟩
      obtain ⟨hdir, hshort, rfl⟩ := step_eq_ok.1 hstep
      obtain ⟨rfl, hall⟩ := ih.1 hrest
      refine ⟨rfl, ?_⟩
      rintro (_ | ⟨head, q⟩) part' rest' heq
      · cases heq
        exact ⟨hdir, hshort⟩
      · cases heq
        exact hall q part' rest' rfl
    · rintro ⟨rfl, hall⟩
      obtain ⟨hdir, hshort⟩ := hall [] part rest rfl
      refine ⟨follow l part, step_eq_ok.2 ⟨hdir, hshort, rfl⟩, ih.2 ⟨rfl, ?_⟩⟩
      rintro q part' rest' rfl
      exact hall (part :: q) part' rest' rfl

theorem foldlM_step_eq_error {parts : List String} (h : parts.foldlM t.step l = .error o) :
    (o = .tooLong ∧ ∃ part ∈ parts, maxNameBytes < part.utf8ByteSize) ∨
      ∃ q part rest, parts = q ++ part :: rest ∧ Stops (t.get? (q.foldl follow l)) o := by
  induction parts generalizing l with
  | nil => simp [pure, Except.pure] at h
  | cons part rest ih =>
    rw [List.foldlM_cons, bind_eq_error] at h
    rcases h with hstep | ⟨l', hstep, hrest⟩
    · rcases step_eq_error hstep with ⟨ho, hlong⟩ | hstops
      · exact .inl ⟨ho, part, List.mem_cons_self, hlong⟩
      · exact .inr ⟨[], part, rest, rfl, hstops⟩
    · obtain ⟨-, -, rfl⟩ := step_eq_ok.1 hstep
      rcases ih hrest with ⟨ho, part', hmem, hlong⟩ | ⟨q, part', rest', rfl, hstops⟩
      · exact .inl ⟨ho, part', List.mem_cons_of_mem part hmem, hlong⟩
      · exact .inr ⟨part :: q, part', rest', rfl, hstops⟩

theorem locate_eq_ok : t.locate p = .ok l ↔
    p.text.utf8ByteSize ≤ maxPathBytes ∧ l = t.normalize p ∧
      ∀ q part rest, p.parts = q ++ part :: rest →
        t.get? (t.normalize ⟨p.root, q⟩) = some .directory ∧ part.utf8ByteSize ≤ maxNameBytes := by
  unfold locate
  by_cases hlong : maxPathBytes < p.text.utf8ByteSize
  · simp [hlong, Nat.not_le.2 hlong]
  · rw [if_neg hlong, and_iff_right (Nat.not_lt.1 hlong)]
    exact foldlM_step_eq_ok

/-- A path or one of its names is too long to be followed. -/
def TooLong (p : Path) : Prop :=
  (∃ q, q <+: p.parts ∧ maxPathBytes < (Path.text ⟨p.root, q⟩).utf8ByteSize) ∨
    ∃ part ∈ p.parts, maxNameBytes < part.utf8ByteSize

instance (p : Path) : Decidable (TooLong p) :=
  decidable_of_iff ((∃ q ∈ p.parts.inits, maxPathBytes < (Path.text ⟨p.root, q⟩).utf8ByteSize) ∨
    ∃ part ∈ p.parts, maxNameBytes < part.utf8ByteSize) (by simp [TooLong])

theorem TooLong.of_front (h : TooLong ⟨root, q⟩) (hq : q <+: p.parts) (hroot : root = p.root) :
    TooLong p := by
  subst hroot
  refine h.imp ?_ ?_
  · rintro ⟨q', hq', hlong⟩
    exact ⟨q', hq'.trans hq, hlong⟩
  · rintro ⟨part, hpart, hlong⟩
    exact ⟨part, hq.subset hpart, hlong⟩

theorem locate_eq_error (h : t.locate p = .error o) : (o = .tooLong ∧ TooLong p) ∨
    ∃ q part rest, p.parts = q ++ part :: rest ∧ Stops (t.get? (t.normalize ⟨p.root, q⟩)) o := by
  unfold locate at h
  by_cases hlong : maxPathBytes < p.text.utf8ByteSize
  · rw [if_pos hlong] at h
    exact .inl ⟨(Except.error.inj h).symm, .inl ⟨p.parts, List.prefix_rfl, hlong⟩⟩
  · rw [if_neg hlong] at h
    refine (foldlM_step_eq_error h).imp_left ?_
    rintro ⟨ho, hname⟩
    exact ⟨ho, .inr hname⟩

theorem normalize_of_locate (h : t.locate p = .ok l) : t.normalize p = l :=
  (locate_eq_ok.1 h).2.1.symm

theorem find?_eq_some {e : Entry} : t.find? p = some e ↔
    t.locate p = .ok (t.normalize p) ∧ t.get? (t.normalize p) = some e := by
  unfold find?
  split
  · next l hl => rw [hl, normalize_of_locate hl, and_iff_right rfl]
  · next hl => simp [hl]

theorem isDirectory_iff : t.isDirectory p = true ↔ t.find? p = some .directory := by
  simp [isDirectory]

/-- A path to a directory leads through directories. -/
theorem get?_of_find? (h : t.find? p = some .directory) {q : List String} (hq : q <+: p.parts) :
    t.get? (t.normalize ⟨p.root, q⟩) = some .directory := by
  obtain ⟨hlocate, hget⟩ := find?_eq_some.1 h
  obtain ⟨rest, hparts⟩ := hq
  cases rest with
  | nil =>
    rw [List.append_nil] at hparts
    rwa [hparts]
  | cons part rest => exact ((locate_eq_ok.1 hlocate).2.2 q part rest hparts.symm).1

/-- Where the front parts of a path lead. -/
def trail (t : Tree) (p : Path) : List Location :=
  p.parts.inits.map fun q => t.normalize ⟨p.root, q⟩

theorem mem_trail : l ∈ t.trail p ↔ ∃ q, q <+: p.parts ∧ t.normalize ⟨p.root, q⟩ = l := by
  simp [trail, List.mem_inits]

theorem normalize_mem_trail (t : Tree) (p : Path) : t.normalize p ∈ t.trail p :=
  mem_trail.2 ⟨p.parts, List.prefix_rfl, rfl⟩

/-- A file is where a path needs a directory. -/
def Blocked (t : Tree) (p : Path) : Prop :=
  ∃ l ∈ t.trail p, ∃ content, t.get? l = some (.file content)

theorem not_blocked (h : t.find? p = some .directory) : ¬ t.Blocked p := by
  rintro ⟨l, hl, content, hfile⟩
  obtain ⟨q, hq, rfl⟩ := mem_trail.1 hl
  rw [get?_of_find? h hq] at hfile
  cases hfile

/-! ## Changes -/

/-- What may become of the entry at a location when files are written and directories made. -/
inductive Change (files : List (Location × String)) (dirs : List Location) (l : Location) :
    Option Entry → Option Entry → Prop
  | same (e : Option Entry) : Change files dirs l e e
  | file {e : Option Entry} {content : String} (hmem : (l, content) ∈ files)
      (hne : e ≠ some .directory) : Change files dirs l e (some (.file content))
  | directory (hmem : l ∈ dirs) : Change files dirs l none (some .directory)

/-- A tree differs from another by some of the given files and directories. -/
structure Changes (files : List (Location × String)) (dirs : List Location) (t t' : Tree) :
    Prop where
  current : t'.current = t.current
  entry : ∀ l, Change files dirs l (t.get? l) (t'.get? l)

section

variable {files files' : List (Location × String)} {dirs dirs' : List Location} {t'' : Tree}

theorem Changes.refl (t : Tree) : Changes files dirs t t := ⟨rfl, fun _ => .same _⟩

theorem Change.trans {a b c : Option Entry} (h : Change files dirs l a b)
    (h' : Change files dirs l b c) : Change files dirs l a c := by
  cases h with
  | same => exact h'
  | file hmem hne =>
    cases h' with
    | same => exact .file hmem hne
    | file hmem' _ => exact .file hmem' hne
  | directory hmem =>
    cases h' with
    | same => exact .directory hmem
    | file _ hne => exact absurd rfl hne

theorem Changes.trans (h : Changes files dirs t t') (h' : Changes files dirs t' t'') :
    Changes files dirs t t'' :=
  ⟨h'.current.trans h.current, fun l => (h.entry l).trans (h'.entry l)⟩

theorem Changes.mono (h : Changes files dirs t t') (hfiles : files ⊆ files')
    (hdirs : dirs ⊆ dirs') : Changes files' dirs' t t' := by
  refine ⟨h.current, fun l => ?_⟩
  have hentry := h.entry l
  revert hentry
  generalize t.get? l = a, t'.get? l = b
  rintro (_ | ⟨hmem, hne⟩ | hmem)
  · exact .same _
  · exact .file (hfiles hmem) hne
  · exact .directory (hdirs hmem)

/-- Nothing vanishes. -/
theorem Changes.get?_ne_none (h : Changes files dirs t t') (hl : t.get? l ≠ none) :
    t'.get? l ≠ none := by
  have hentry := h.entry l
  revert hentry hl
  generalize t.get? l = a, t'.get? l = b
  rintro hl (_ | _ | _)
  · exact hl
  · simp
  · simp

theorem Changes.get?_directory (h : Changes files dirs t t') (hl : t.get? l = some .directory) :
    t'.get? l = some .directory := by
  have hentry := h.entry l
  rw [hl] at hentry
  revert hentry
  generalize t'.get? l = b
  rintro (_ | ⟨-, hne⟩)
  · rfl
  · exact absurd rfl hne

theorem Changes.normalize (h : Changes files dirs t t') (p : Path) :
    t'.normalize p = t.normalize p := by
  unfold Tree.normalize
  rw [h.current]

/-- A path that leads somewhere still leads there. -/
theorem Changes.locate (h : Changes files dirs t t') (hp : t.locate p = .ok l) :
    t'.locate p = .ok l := by
  obtain ⟨hshort, rfl, hall⟩ := locate_eq_ok.1 hp
  refine locate_eq_ok.2 ⟨hshort, (h.normalize p).symm, fun q part rest heq => ?_⟩
  rw [h.normalize]
  exact ⟨h.get?_directory (hall q part rest heq).1, (hall q part rest heq).2⟩

theorem Changes.find?_directory (h : Changes files dirs t t') (hp : t.find? p = some .directory) :
    t'.find? p = some .directory := by
  obtain ⟨hlocate, hget⟩ := find?_eq_some.1 hp
  rw [find?_eq_some, h.normalize]
  exact ⟨h.locate hlocate, h.get?_directory hget⟩

/-- A file stays as it is unless it is among those that are written. -/
theorem Changes.find?_file (h : Changes files dirs t t') {content : String}
    (hp : t.find? p = some (.file content)) (hne : ∀ other, (t.normalize p, other) ∉ files) :
    t'.find? p = some (.file content) := by
  obtain ⟨hlocate, hget⟩ := find?_eq_some.1 hp
  rw [find?_eq_some, h.normalize]
  refine ⟨h.locate hlocate, ?_⟩
  have hentry := h.entry (t.normalize p)
  rw [hget] at hentry
  revert hentry
  generalize t'.get? (t.normalize p) = b
  rintro (_ | ⟨hmem, -⟩)
  · rfl
  · exact absurd hmem (hne _)

theorem Changes.trail (h : Changes files dirs t t') (p : Path) : t'.trail p = t.trail p := by
  simp [Tree.trail, h.normalize]

/-- A file that is not among those that are written was there before. -/
theorem Changes.get?_file (h : Changes files dirs t t') {content : String}
    (hl : t'.get? l = some (.file content)) (hne : ∀ other, (l, other) ∉ files) :
    t.get? l = some (.file content) := by
  have hentry := h.entry l
  rw [hl] at hentry
  revert hentry
  generalize t.get? l = a
  rintro (_ | ⟨hmem, -⟩)
  · rfl
  · exact absurd hmem (hne _)

/-- A file in the way of a path was there before, if no files are written. -/
theorem Changes.blocked (h : Changes [] dirs t t') (hp : t'.Blocked p) : t.Blocked p := by
  obtain ⟨l, hl, content, hfile⟩ := hp
  exact ⟨l, h.trail p ▸ hl, content, h.get?_file hfile (by simp)⟩

end

/-! ## Making directories -/

theorem normalize_concat (t : Tree) (root : String) (q : List String) (part : String) :
    t.normalize ⟨root, q ++ [part]⟩ = follow (t.normalize ⟨root, q⟩) part := by
  rw [normalize_eq, List.foldl_append]
  rfl

/-- Wherever a path leads, there is a directory above. -/
theorem get?_parent_of_locate (hclosed : t.Closed) (h : t.locate p = .ok l) :
    t.get? l.dropLast = some .directory := by
  by_cases hsome : t.get? l ≠ none
  · exact hclosed l hsome
  · obtain ⟨root, parts⟩ := p
    obtain ⟨-, rfl, hall⟩ := locate_eq_ok.1 h
    rcases List.eq_nil_or_concat' parts with rfl | ⟨q, part, rfl⟩
    · have hstart := t.get?_start ⟨root, []⟩
      exact absurd (by rw [normalize_eq, List.foldl_nil, hstart]; simp) hsome
    · have hdir := (hall q part [] rfl).1
      rw [normalize_concat, follow] at hsome ⊢
      split_ifs at hsome ⊢ with hdots
      · -- Two dots lead out of a directory, to one that exists.
        have hback := hclosed _ (by rw [hdir]; simp)
        exact absurd (by rw [hback]; simp) hsome
      · rwa [List.dropLast_concat]

/-- What comes of making one directory. -/
inductive Ensured (t : Tree) (p : Path) : Tree × Except Failure Unit → Prop
  | present (h : t.find? p = some .directory) : Ensured t p (t, .ok ())
  | made (hlocate : t.locate p = .ok (t.normalize p)) (hnone : t.get? (t.normalize p) = none)
      (hparent : t.get? (t.normalize p).dropLast = some .directory) :
      Ensured t p (t.set (t.normalize p) .directory, .ok ())
  | obstructed {content : String} (h : t.find? p = some (.file content)) :
      Ensured t p (t, .error (.obstructed p.text))
  | failed {o : Obstacle} (h : t.locate p = .error o) : Ensured t p (t, .error (failure p o))

theorem makeDirectory_of_error (h : t.locate p = .error o) : t.makeDirectory p = .error o := by
  rw [makeDirectory, h]
  rfl

theorem makeDirectory_of_some {e : Entry} (h : t.locate p = .ok l) (hl : t.get? l = some e) :
    t.makeDirectory p = .error .occupied := by
  rw [makeDirectory, h]
  simp [bind, Except.bind, hl]

theorem makeDirectory_of_none (hclosed : t.Closed) (h : t.locate p = .ok l)
    (hl : t.get? l = none) : t.makeDirectory p = .ok (t.set l .directory) := by
  rw [makeDirectory, h]
  simp [bind, Except.bind, hl, get?_parent_of_locate hclosed h, pure, Except.pure]

theorem ensured_ensureDirectory (hclosed : t.Closed) (p : Path) :
    Ensured t p (t.ensureDirectory p) := by
  unfold ensureDirectory
  rcases hlocate : t.locate p with o | l
  · have hdir : ¬ t.isDirectory p = true := by
      rw [isDirectory_iff, find?, hlocate]
      simp
    rw [makeDirectory_of_error hlocate]
    simp only [hdir, Bool.false_eq_true, Bool.and_false, if_false]
    exact .failed hlocate
  · obtain rfl := normalize_of_locate hlocate
    rcases hget : t.get? (t.normalize p) with _ | e
    · rw [makeDirectory_of_none hclosed hlocate hget]
      exact .made hlocate hget (get?_parent_of_locate hclosed hlocate)
    · have hfind := find?_eq_some.2 ⟨hlocate, hget⟩
      rw [makeDirectory_of_some hlocate hget]
      cases e with
      | directory =>
        have hdir := isDirectory_iff.2 hfind
        simp only [hdir]
        exact .present hfind
      | file content =>
        have hdir : ¬ t.isDirectory p = true := by
          rw [isDirectory_iff, hfind]
          simp
        simp only [hdir, Bool.false_eq_true, Bool.and_false, if_false]
        exact .obstructed hfind

/-- A failure because something stands in the way. -/
inductive InTheWay : Failure → Prop
  | file (text : String) : InTheWay (.fileExists text)
  | obstacle (text : String) : InTheWay (.obstructed text)

/-- What comes of making a directory together with those above it. -/
structure MakesDirectories (t : Tree) (p : Path) (r : Tree × Except Failure Unit) : Prop where
  closed : r.1.Closed
  changes : Changes [] (t.trail p) t r.1
  present : r.2 = .ok () → r.1.find? p = some .directory
  failed : ∀ f, r.2 = .error f → t.Blocked p ∨ (¬ InTheWay f ∧ TooLong p)

theorem changes_set_directory (hnone : t.get? l = none) :
    Changes [] [l] t (t.set l .directory) := by
  refine ⟨rfl, fun k => ?_⟩
  rw [get?_set (by rw [hnone]; simp)]
  split_ifs with hk
  · rw [hk, hnone]
    exact .directory (List.mem_singleton_self l)
  · exact .same _

/-- A path that leads nowhere is too long or stopped by a file, if no directory is missing. -/
theorem blocked_of_locate (h : t.locate p = .error o) (ho : o ≠ .missing) :
    t.Blocked p ∨ (o = .tooLong ∧ TooLong p) := by
  rcases locate_eq_error h with hlong | ⟨q, part, rest, hparts, hstops⟩
  · exact .inr hlong
  · left
    have hq : t.normalize ⟨p.root, q⟩ ∈ t.trail p :=
      mem_trail.2 ⟨q, hparts ▸ List.prefix_append q _, rfl⟩
    generalize hget : t.get? _ = e at hstops
    cases hstops with
    | missing => exact absurd rfl ho
    | notDirectory content => exact ⟨_, hq, content, hget⟩

theorem makesDirectories_of_ensured (hclosed : t.Closed) (hmissing : t.locate p ≠ .error .missing)
    {r : Tree × Except Failure Unit} (h : Ensured t p r) : MakesDirectories t p r := by
  have hend := t.normalize_mem_trail p
  cases h with
  | present h => exact ⟨hclosed, .refl t, fun _ => h, by simp⟩
  | made hlocate hnone hparent =>
    have hchanges := changes_set_directory hnone
    have hne : t.get? (t.normalize p) ≠ some .directory := by rw [hnone]; simp
    refine ⟨hclosed.set hne hparent _, hchanges.mono (List.Subset.refl _) (by simpa using hend),
      fun _ => find?_eq_some.2 ⟨?_, ?_⟩, by simp⟩
    · rw [hchanges.normalize]
      exact hchanges.locate hlocate
    · rw [hchanges.normalize, get?_set hne, if_pos rfl]
  | obstructed h =>
    exact ⟨hclosed, .refl t, by simp, fun _ _ => .inl ⟨_, hend, _, (find?_eq_some.1 h).2⟩⟩
  | failed h =>
    refine ⟨hclosed, .refl t, by simp, fun f heq => ?_⟩
    have hcause := blocked_of_locate h fun ho => hmissing (ho ▸ h)
    refine hcause.imp_right ?_
    rintro ⟨rfl, hlong⟩
    rw [← Except.error.inj heq]
    exact ⟨by rintro ⟨⟩, hlong⟩

theorem front_of_concat {q' rest : List String} {part' : String}
    (h : q ++ [part] = q' ++ part' :: rest) : q' <+: q := by
  refine List.prefix_of_prefix_length_le (List.prefix_append q' (part' :: rest))
    (h ▸ List.prefix_append q [part]) ?_
  have hlength := congrArg List.length h
  simp only [List.length_append, List.length_cons, List.length_nil] at hlength
  omega

/-- A name in a directory that exists leads somewhere unless it is too long. -/
theorem tooLong_of_locate (hdir : t.find? ⟨root, q⟩ = some .directory)
    (h : t.locate ⟨root, q ++ [part]⟩ = .error o) : o = .tooLong ∧ TooLong ⟨root, q ++ [part]⟩ := by
  refine (locate_eq_error h).resolve_right ?_
  rintro ⟨q', part', rest, hparts, hstops⟩
  rw [get?_of_find? hdir (front_of_concat hparts)] at hstops
  cases hstops

/-- A directory is made once those above it have been. -/
theorem MakesDirectories.concat {r : Tree × Except Failure Unit} : MakesDirectories t ⟨root, q⟩ r →
      MakesDirectories t ⟨root, q ++ [part]⟩
        (match r with
          | (t, .ok ()) => t.ensureDirectory ⟨root, q ++ [part]⟩
          | (t, .error f) => (t, .error f)) := by
  intro h
  have hfront : q <+: q ++ [part] := List.prefix_append q [part]
  have hsubset : t.trail ⟨root, q⟩ ⊆ t.trail ⟨root, q ++ [part]⟩ := by
    intro l hl
    obtain ⟨q', hq', hl⟩ := mem_trail.1 hl
    exact mem_trail.2 ⟨q', hq'.trans hfront, hl⟩
  obtain ⟨t₁, f | ⟨⟩⟩ := r
  · refine ⟨h.closed, h.changes.mono (List.Subset.refl _) hsubset, by simp, fun f' heq => ?_⟩
    refine (h.failed f' heq).imp ?_ ?_
    · rintro ⟨l, hl, hfile⟩
      exact ⟨l, hsubset hl, hfile⟩
    · rintro ⟨hway, hlong⟩
      exact ⟨hway, hlong.of_front hfront rfl⟩
  · have habove := h.changes.mono (List.Subset.refl _) hsubset
    have hlast := makesDirectories_of_ensured h.closed
      (fun hmissing => by cases (tooLong_of_locate (h.present rfl) hmissing).1)
      (ensured_ensureDirectory h.closed ⟨root, q ++ [part]⟩)
    have hchanges := hlast.changes
    rw [habove.trail] at hchanges
    exact ⟨hlast.closed, habove.trans hchanges, hlast.present,
      fun f heq => (hlast.failed f heq).imp_left habove.blocked⟩

theorem makesDirectories_ensureParents (hclosed : t.Closed) (root : String) (parts : List String) :
    MakesDirectories t ⟨root, parts.reverse⟩ (t.ensureParents root parts) := by
  induction parts with
  | nil =>
    refine makesDirectories_of_ensured hclosed (fun hmissing => ?_)
      (ensured_ensureDirectory hclosed _)
    rcases locate_eq_error hmissing with ⟨ho, -⟩ | ⟨q, part, rest, hparts, -⟩
    · cases ho
    · exact absurd hparts.symm (by simp)
  | cons part above ih =>
    rw [ensureParents]
    simp only [List.reverse_cons]
    split
    · exact ih.concat
    · next hmake =>
      exact makesDirectories_of_ensured hclosed
        (fun hmissing => hmake (makeDirectory_of_error hmissing))
        (ensured_ensureDirectory hclosed _)

theorem makesDirectories_makeDirectories (hclosed : t.Closed) (p : Path) :
    MakesDirectories t p (t.makeDirectories p) := by
  have h := makesDirectories_ensureParents hclosed p.root p.parts.reverse
  rwa [List.reverse_reverse] at h

/-- A directory that exists is left alone. -/
theorem makeDirectories_of_directory (h : t.find? p = some .directory) :
    t.makeDirectories p = (t, .ok ()) := by
  have hmake : t.makeDirectory p = .error .occupied :=
    makeDirectory_of_some (find?_eq_some.1 h).1 (find?_eq_some.1 h).2
  have hensure : t.ensureDirectory p = (t, .ok ()) := by
    simp [ensureDirectory, hmake, isDirectory_iff.2 h]
  obtain ⟨root, parts⟩ := p
  rcases List.eq_nil_or_concat' parts with rfl | ⟨q, part, rfl⟩
  · exact hensure
  · rw [makeDirectories, List.reverse_concat, ensureParents]
    simp only [List.reverse_cons, List.reverse_reverse]
    rw [hmake]
    exact hensure

end Typegen.Files.Tree

namespace Typegen.Files

open Typegen.Files.Tree

/-! ## Names in a directory -/

/-- The path of a name in a directory. -/
def Path.child (dir : Path) (name : String) : Path := ⟨dir.root, dir.parts ++ [name]⟩

@[simp] theorem Path.parent_child (dir : Path) (name : String) : (dir.child name).parent = dir := by
  simp [child, parent]

@[simp] theorem Path.name_child (dir : Path) (name : String) : (dir.child name).name = name := by
  simp [child, Path.name]

variable {t t' : Tree} {l : Location} {dir : Path} {content name : String}
  {files : List (Location × String)} {dirs : List Location}

theorem Tree.normalize_child (hname : name ≠ "..") :
    t.normalize (dir.child name) = t.normalize dir ++ [name] := by
  rw [Path.child, normalize_concat, follow, if_neg hname]

/-- A name in a directory that exists leads somewhere if it does after some changes. -/
theorem Tree.Changes.locate_child (h : Changes files dirs t t')
    (hdir : t.find? dir = some .directory)
    (hlocate : t'.locate (dir.child name) = .ok l) : t.locate (dir.child name) = .ok l := by
  obtain ⟨hshort, rfl, hall⟩ := locate_eq_ok.1 hlocate
  refine locate_eq_ok.2 ⟨hshort, h.normalize _, fun q part rest heq => ?_⟩
  exact ⟨get?_of_find? hdir (front_of_concat heq), (hall q part rest heq).2⟩

theorem changes_set_file (hget : t.get? l ≠ some .directory) :
    Changes [(l, content)] dirs t (t.set l (.file content)) := by
  refine ⟨rfl, fun k => ?_⟩
  rw [get?_set hget]
  split_ifs with hk
  · rw [hk]
    exact .file (List.mem_singleton_self _) hget
  · exact .same _

end Typegen.Files
