import Mathlib.Data.List.Nodup
import Mathlib.Data.List.Perm.Subperm
import Typegen.Files.Writer
import Typegen.Proofs.Trees

/-!
# Temporary files

A file is written under a temporary name in its directory and then moved to its own path.  Temporary
names with different numbers are different, so among more names than the tree has entries one is
free, and the file never comes in the way of another.  When all is done, nothing is left of it: the
file stands at its own path (`writeThrough_of_ok`), or the tree is what it was.
-/

namespace Typegen.Files

open Typegen.Files.Tree

variable {t : Tree} {l dir : Location} {p : Path} {name content : String} {m n : Nat}

/-! ## Names -/

theorem ofDigitChars_temporaryCode (n : Nat) :
    Nat.ofDigitChars 10 (temporaryCode n).toList 0 = n := by
  have hzeros : ∀ k, Nat.ofDigitChars 10 (List.replicate k '0') 0 = 0 := by
    intro k
    induction k with
    | zero => rfl
    | succ k ih => exact ih
  rw [temporaryCode, String.toList_ofList, List.leftpad, Nat.ofDigitChars_append, hzeros,
    Nat.toString_eq_ofList_toDigits, String.toList_ofList, Nat.ofDigitChars_ten_toDigits]

theorem temporaryName_injective (h : temporaryName name m = temporaryName name n) : m = n := by
  have hlists := congrArg String.toList h
  simp only [temporaryName, String.toList_append, List.append_assoc, List.append_cancel_left_eq,
    List.append_cancel_right_eq] at hlists
  rw [← ofDigitChars_temporaryCode m, hlists, ofDigitChars_temporaryCode]

theorem temporaryName_ne (name : String) (n : Nat) : temporaryName name n ≠ name := by
  intro h
  have hlength := congrArg (fun s => s.toList.length) h
  simp only [temporaryName, String.toList_append, List.length_append] at hlength
  have hdot : ".".toList.length = 1 := rfl
  omega

/-- Among more names than the tree has entries one is free.  The directory that is current, or one
above it, may take one more name. -/
theorem exists_temporaryName (t : Tree) (dir : Location) (name : String) :
    ∃ n < t.entries.length + 2, t.get? (dir ++ [temporaryName name n]) = none := by
  by_contra hall
  have htaken : ∀ l ∈ (List.range (t.entries.length + 2)).map
      (fun n => dir ++ [temporaryName name n]),
      l ∈ t.current.take (dir.length + 1) :: t.entries.map Prod.fst := by
    intro l hl
    obtain ⟨n, hn, rfl⟩ := List.mem_map.1 hl
    have hsome : t.get? (dir ++ [temporaryName name n]) ≠ none :=
      fun hnone => hall ⟨n, List.mem_range.1 hn, hnone⟩
    rw [get?] at hsome
    split_ifs at hsome with hcurrent
    · have htake := List.prefix_iff_eq_take.1 (List.isPrefixOf_iff_prefix.1 hcurrent)
      rw [List.length_append, List.length_singleton] at htake
      rw [htake]
      exact List.mem_cons_self
    · obtain ⟨e, he⟩ := Option.ne_none_iff_exists'.1 hsome
      exact List.mem_cons_of_mem _ (List.mem_map.2 ⟨_, mem_of_lookup he, rfl⟩)
  have hnodup : ((List.range (t.entries.length + 2)).map
      fun n => dir ++ [temporaryName name n]).Nodup := by
    refine List.Nodup.map_on (fun m _ n _ heq => ?_) List.nodup_range
    exact temporaryName_injective (by simpa using heq)
  have hlength := (hnodup.subperm htaken).length_le
  rw [List.length_map, List.length_range, List.length_cons, List.length_map] at hlength
  omega

theorem exists_temporaryLocation (t : Tree) (dir : Location) (name : String) :
    ∃ n, temporaryLocation? t dir name = some (dir ++ [temporaryName name n]) ∧
      t.get? (dir ++ [temporaryName name n]) = none := by
  obtain ⟨n, hn, hfree⟩ := exists_temporaryName t dir name
  have hsome : (temporaryLocation? t dir name).isSome := by
    rw [temporaryLocation?, List.find?_isSome]
    exact ⟨_, List.mem_map.2 ⟨n, List.mem_range.2 hn, rfl⟩, by rw [hfree]; rfl⟩
  obtain ⟨temporary, htemporary⟩ := Option.isSome_iff_exists.1 hsome
  obtain ⟨k, -, rfl⟩ := List.mem_map.1 (List.mem_of_find?_eq_some htemporary)
  have hnone := List.find?_some htemporary
  exact ⟨k, htemporary, Option.isNone_iff_eq_none.1 hnone⟩

/-! ## Entries that come and go -/

theorem setEntry_of_notMem {e : Entry} {es : List (Location × Entry)} (h : l ∉ es.map Prod.fst) :
    setEntry l e es = es ++ [(l, e)] := by
  induction es with
  | nil => rfl
  | cons entry rest ih =>
    obtain ⟨k, old⟩ := entry
    rw [List.map_cons, List.mem_cons, not_or] at h
    rw [setEntry, if_neg (Ne.symm h.1), ih h.2]
    rfl

theorem notMem_entries (h : t.get? l = none) : l ∉ t.entries.map Prod.fst := by
  intro hmem
  obtain ⟨e, he⟩ := exists_lookup_of_mem_keys hmem
  rw [get?] at h
  split_ifs at h
  rw [he] at h
  cases h

theorem set_set (h : t.get? l = none) (e e' : Entry) : (t.set l e).set l e' = t.set l e' := by
  have hnew := notMem_entries h
  have hset : ∀ es : List (Location × Entry), l ∉ es.map Prod.fst →
      setEntry l e' (es ++ [(l, e)]) = es ++ [(l, e')] := by
    intro es
    induction es with
    | nil => intro _; simp [setEntry]
    | cons entry rest ih =>
      intro hes
      obtain ⟨k, old⟩ := entry
      rw [List.map_cons, List.mem_cons, not_or] at hes
      rw [List.cons_append, setEntry, if_neg (Ne.symm hes.1), ih hes.2]
      rfl
  simp only [Tree.set, setEntry_of_notMem hnew, hset _ hnew]

/-- What has been added and removed again leaves no trace. -/
theorem remove_set (h : t.get? l = none) (e : Entry) : (t.set l e).remove l = t := by
  have hnew := notMem_entries h
  have hkeep : t.entries.filter (fun entry => entry.1 ≠ l) = t.entries := by
    refine List.filter_eq_self.2 fun entry hentry => ?_
    simpa using fun heq => hnew (List.mem_map.2 ⟨entry, hentry, heq⟩)
  simp only [Tree.set, remove, setEntry_of_notMem hnew, List.filter_append, hkeep]
  simp

/-! ## Writing through a temporary file -/

/-- The file is written under a free name of its directory, and what happens when it is moved
decides the outcome. -/
theorem writeThrough_eq (t : Tree) (p : Path) (content : String) :
    ∃ n, t.get? (t.normalize p.parent ++ [temporaryName p.name n]) = none ∧
      (∀ f, moveFile (t.set (t.normalize p.parent ++ [temporaryName p.name n]) (.file content))
          (t.normalize p.parent ++ [temporaryName p.name n]) p = .error f →
        writeThrough t p content = (t, .error f)) ∧
      ∀ t', moveFile (t.set (t.normalize p.parent ++ [temporaryName p.name n]) (.file content))
          (t.normalize p.parent ++ [temporaryName p.name n]) p = .ok t' →
        writeThrough t p content = (t', .ok ()) := by
  obtain ⟨n, htemporary, hfree⟩ := exists_temporaryLocation t (t.normalize p.parent) p.name
  refine ⟨n, hfree, fun f hmove => ?_, fun t' hmove => ?_⟩
  · simp only [writeThrough, htemporary, set_set hfree, hmove, remove_set hfree]
  · simp only [writeThrough, htemporary, set_set hfree, hmove]

theorem writeThrough_unnamed (h : endsInName p = false) :
    writeThrough t p content = (t, .error .unnamed) := by
  obtain ⟨n, -, hfails, -⟩ := writeThrough_eq t p content
  refine hfails _ ?_
  simp [moveFile, h]

section

variable {above : Path} {o : Obstacle}

theorem endsInName_child (hempty : name ≠ "") (hdots : name ≠ "..") :
    endsInName (above.child name) = true := by
  simp [endsInName, hempty, hdots]

/-- The temporary file does not matter to the path that it is moved to. -/
theorem locate_filled (hdir : t.find? above = some .directory)
    (hfree : t.get? l = none) :
    (t.set l (.file content)).locate (above.child name) = t.locate (above.child name) := by
  have hchanges : Changes [(l, content)] [] t (t.set l (.file content)) :=
    changes_set_file (by rw [hfree]; simp)
  rcases hlocate : t.locate (above.child name) with o | k
  · obtain ⟨rfl, -⟩ := tooLong_of_locate hdir hlocate
    rcases hfilled : (t.set l (.file content)).locate (above.child name) with o' | k
    · rw [(tooLong_of_locate (hchanges.find?_directory hdir) hfilled).1]
    · rw [hchanges.locate_child hdir hfilled] at hlocate
      cases hlocate
  · exact hchanges.locate hlocate

theorem writeThrough_of_error (hempty : name ≠ "") (hdots : name ≠ "..")
    (hdir : t.find? above = some .directory) (hlocate : t.locate (above.child name) = .error o) :
    writeThrough t (above.child name) content =
      (t, .error (Tree.failure (above.child name) o)) := by
  obtain ⟨n, hfree, hfails, -⟩ := writeThrough_eq t (above.child name) content
  refine hfails _ ?_
  rw [moveFile, endsInName_child hempty hdots, locate_filled hdir hfree, hlocate]
  rfl

/-- What the file finds when it is moved: what stands at its own location, and itself. -/
theorem get?_filled (hdots : name ≠ "..") (hlocate : t.locate (above.child name) = .ok l)
    (hfree : t.get? (t.normalize above ++ [temporaryName name n]) = none) (content : String) :
    (t.set (t.normalize above ++ [temporaryName name n]) (.file content)).get? l = t.get? l ∧
      (t.set (t.normalize above ++ [temporaryName name n]) (.file content)).get?
        (t.normalize above ++ [temporaryName name n]) = some (.file content) := by
  have hl := normalize_of_locate hlocate
  rw [normalize_child hdots] at hl
  have hne : l ≠ t.normalize above ++ [temporaryName name n] := by
    rw [← hl]
    simpa using (temporaryName_ne name n).symm
  have hget := get?_set (by rw [hfree]; simp) (.file content)
  exact ⟨(hget l).trans (if_neg hne), (hget _).trans (if_pos rfl)⟩

theorem writeThrough_of_directory (hempty : name ≠ "") (hdots : name ≠ "..")
    (hdir : t.find? above = some .directory) (hlocate : t.locate (above.child name) = .ok l)
    (hget : t.get? l = some .directory) :
    writeThrough t (above.child name) content = (t, .error .isDirectory) := by
  obtain ⟨n, hfree, hfails, -⟩ := writeThrough_eq t (above.child name) content
  refine hfails _ ?_
  rw [moveFile, endsInName_child hempty hdots, locate_filled hdir hfree, hlocate]
  rw [Path.parent_child, Path.name_child] at hfree ⊢
  obtain ⟨htarget, -⟩ := get?_filled hdots hlocate hfree content
  simp [htarget, hget]

theorem writeThrough_of_ok (hempty : name ≠ "") (hdots : name ≠ "..")
    (hdir : t.find? above = some .directory) (hlocate : t.locate (above.child name) = .ok l)
    (hget : t.get? l ≠ some .directory) :
    writeThrough t (above.child name) content = (t.set l (.file content), .ok ()) := by
  obtain ⟨n, hfree, -, hmoves⟩ := writeThrough_eq t (above.child name) content
  refine hmoves _ ?_
  rw [moveFile, endsInName_child hempty hdots, locate_filled hdir hfree, hlocate]
  rw [Path.parent_child, Path.name_child] at hfree ⊢
  obtain ⟨htarget, htemporary⟩ := get?_filled hdots hlocate hfree content
  simp only [Bool.not_true, Bool.false_eq_true, if_false, htarget, htemporary, remove_set hfree]

end

end Typegen.Files
