import Mathlib.Data.List.Forall2

/-!
# Outcomes of operations

How a sequence of operations that may fail comes to succeed: each of them does, one after the other.
`bind_eq_ok` takes such a sequence apart, and `traverse_eq_ok` does so for an operation that goes
through a list.  `IsFirst` picks the item of a list at which going through it stops.
-/

namespace Typegen

section

variable {ε α β : Type}

theorem ok_bind (a : α) (f : α → Except ε β) : (Except.ok a >>= f) = f a := rfl

theorem bind_eq_ok {x : Except ε α} {f : α → Except ε β} {b : β} :
    x >>= f = .ok b ↔ ∃ a, x = .ok a ∧ f a = .ok b := by
  cases x <;> simp [bind, Except.bind]

theorem bind_eq_error {x : Except ε α} {f : α → Except ε β} {e : ε} :
    x >>= f = .error e ↔ x = .error e ∨ ∃ a, x = .ok a ∧ f a = .error e := by
  cases x <;> simp [bind, Except.bind]

theorem pure_eq_ok {a b : α} : (pure a : Except ε α) = .ok b ↔ a = b := by
  simp [pure, Except.pure]

theorem bind_mk_eq_ok {x : Except ε α} {b : β} {r : β × α} :
    (x >>= fun a => pure (b, a)) = .ok r ↔ r.1 = b ∧ x = .ok r.2 := by
  obtain ⟨b', a'⟩ := r
  simp only [bind_eq_ok, pure_eq_ok, Prod.mk.injEq]
  constructor
  · rintro ⟨a, hx, rfl, rfl⟩
    exact ⟨rfl, hx⟩
  · rintro ⟨rfl, hx⟩
    exact ⟨a', hx, rfl, rfl⟩

theorem bind_mk_swap_eq_ok {x : Except ε α} {b : β} {r : α × β} :
    (x >>= fun a => pure (a, b)) = .ok r ↔ r.2 = b ∧ x = .ok r.1 := by
  obtain ⟨a', b'⟩ := r
  simp only [bind_eq_ok, pure_eq_ok, Prod.mk.injEq]
  constructor
  · rintro ⟨a, hx, rfl, rfl⟩
    exact ⟨rfl, hx⟩
  · rintro ⟨rfl, hx⟩
    exact ⟨a', hx, rfl, rfl⟩

/-- An operation that goes through a list item by item succeeds when it does so for every item. -/
theorem traverse_eq_ok {f : α → Except ε β} {run : List α → Except ε (List β)}
    (hnil : run [] = .ok [])
    (hcons : ∀ x xs, run (x :: xs) = f x >>= fun y => run xs >>= fun ys => pure (y :: ys))
    {xs : List α} {ys : List β} :
    run xs = .ok ys ↔ List.Forall₂ (fun x y => f x = .ok y) xs ys := by
  induction xs generalizing ys with
  | nil =>
    rw [hnil, Except.ok.injEq, List.forall₂_nil_left_iff]
    exact eq_comm
  | cons x xs ih =>
    simp only [hcons, bind_eq_ok, pure_eq_ok, ih, List.forall₂_cons_left_iff]
    constructor
    · rintro ⟨y, hy, ys', hys, rfl⟩
      exact ⟨y, ys', hy, hys, rfl⟩
    · rintro ⟨y, ys', hy, hys, rfl⟩
      exact ⟨y, hy, ys', hys, rfl⟩

/-- The same for an operation that goes through entries and keeps their keys. -/
theorem traverse_entries_eq_ok {κ : Type} {f : κ → α → Except ε β}
    {run : List (κ × α) → Except ε (List (κ × β))} (hnil : run [] = .ok [])
    (hcons : ∀ k x rest, run ((k, x) :: rest) =
      f k x >>= fun y => run rest >>= fun ys => pure ((k, y) :: ys))
    {entries : List (κ × α)} {results : List (κ × β)} :
    run entries = .ok results ↔
      List.Forall₂ (fun e r => r.1 = e.1 ∧ f e.1 e.2 = .ok r.2) entries results := by
  rw [traverse_eq_ok (f := fun e => f e.1 e.2 >>= fun y => pure (e.1, y)) hnil]
  · simp only [bind_mk_eq_ok]
  · rintro ⟨k, x⟩ rest
    rw [hcons, bind_assoc]
    simp only [pure_bind]

theorem exists_forall₂ {R : α → β → Prop} {xs : List α} (h : ∀ x ∈ xs, ∃ y, R x y) :
    ∃ ys, List.Forall₂ R xs ys := by
  induction xs with
  | nil => exact ⟨[], .nil⟩
  | cons x xs ih =>
    obtain ⟨y, hy⟩ := h x List.mem_cons_self
    obtain ⟨ys, hys⟩ := ih fun x' hx' => h x' (List.mem_cons_of_mem x hx')
    exact ⟨y :: ys, .cons hy hys⟩

theorem exists_mem_zip {R : α → β → Prop} {xs : List α} {ys : List β}
    (h : List.Forall₂ R xs ys) {x : α} (hx : x ∈ xs) : ∃ y, (x, y) ∈ xs.zip ys ∧ R x y := by
  induction h with
  | nil => simp at hx
  | cons hxy _ ih =>
    rcases List.mem_cons.1 hx with rfl | hx
    · exact ⟨_, List.mem_cons_self, hxy⟩
    · obtain ⟨y, hy, hxy⟩ := ih hx
      exact ⟨y, List.mem_cons_of_mem _ hy, hxy⟩

theorem exists_of_mem_left {R : α → β → Prop} {xs : List α} {ys : List β}
    (h : List.Forall₂ R xs ys) {x : α} (hx : x ∈ xs) : ∃ y ∈ ys, R x y := by
  obtain ⟨y, hy, hxy⟩ := exists_mem_zip h hx
  exact ⟨y, (List.of_mem_zip hy).2, hxy⟩

theorem exists_of_mem_right {R : α → β → Prop} {xs : List α} {ys : List β}
    (h : List.Forall₂ R xs ys) {y : β} (hy : y ∈ ys) : ∃ x ∈ xs, R x y :=
  exists_of_mem_left h.flip hy

variable {γ : Type}

theorem map_eq_of_forall₂ {R : α → β → Prop} {xs : List α} {ys : List β} (h : List.Forall₂ R xs ys)
    {f : α → γ} {g : β → γ} (hR : ∀ x y, R x y → g y = f x) : ys.map g = xs.map f := by
  induction h with
  | nil => rfl
  | cons hxy _ ih => rw [List.map_cons, List.map_cons, hR _ _ hxy, ih]

theorem map_fst_of_forall₂ {κ : Type} {R : κ × α → κ × β → Prop} {xs : List (κ × α)}
    {ys : List (κ × β)} (h : List.Forall₂ (fun x y => y.1 = x.1 ∧ R x y) xs ys) :
    ys.map Prod.fst = xs.map Prod.fst :=
  map_eq_of_forall₂ h fun _ _ hxy => hxy.1

theorem forall₂_imp_mem {R S : α → β → Prop} {xs : List α} {ys : List β}
    (h : List.Forall₂ R xs ys) (himp : ∀ x ∈ xs, ∀ y ∈ ys, R x y → S x y) :
    List.Forall₂ S xs ys := by
  induction h with
  | nil => exact .nil
  | cons hxy _ ih =>
    refine .cons (himp _ List.mem_cons_self _ List.mem_cons_self hxy) (ih fun x hx y hy => ?_)
    exact himp x (List.mem_cons_of_mem _ hx) y (List.mem_cons_of_mem _ hy)

theorem forall₂_zip {R : α → β → Prop} {S : α → γ → Prop} {xs : List α} {ys : List β} {zs : List γ}
    (hR : List.Forall₂ R xs ys) (hS : List.Forall₂ S xs zs) :
    List.Forall₂ (fun p z => R p.1 p.2 ∧ S p.1 z) (xs.zip ys) zs := by
  induction hR generalizing zs with
  | nil =>
    cases hS
    exact .nil
  | cons hxy _ ih =>
    cases hS with
    | cons hxz hrest => exact .cons ⟨hxy, hxz⟩ (ih hrest)

theorem forall₂_join {R : α → γ → Prop} {S : β → γ → Prop} {xs : List α} {ys : List β} {zs : List γ}
    (hR : List.Forall₂ R xs zs) (hS : List.Forall₂ S ys zs) :
    List.Forall₂ (fun x y => ∃ z ∈ zs, R x z ∧ S y z) xs ys := by
  induction hR generalizing ys with
  | nil =>
    cases hS
    exact .nil
  | cons hxz _ ih =>
    cases hS with
    | cons hyz hrest =>
      refine .cons ⟨_, List.mem_cons_self, hxz, hyz⟩ ((ih hrest).imp ?_)
      rintro x y ⟨z, hz, hboth⟩
      exact ⟨z, List.mem_cons_of_mem _ hz, hboth⟩

theorem optionRel_join {R : α → γ → Prop} {S : β → γ → Prop} {T : α → β → Prop} {a : Option α}
    {b : Option β} {c : Option γ} (hR : Option.Rel R a c) (hS : Option.Rel S b c)
    (hT : ∀ x y z, c = some z → R x z → S y z → T x y) : Option.Rel T a b := by
  cases hR with
  | none =>
    cases hS
    exact .none
  | some hx =>
    cases hS with
    | some hy => exact .some (hT _ _ _ rfl hx hy)

theorem eq_of_optionRel {R : α → γ → Prop} {S : β → γ → Prop} {a : Option α} {b : Option β}
    {c d : Option γ} (hR : Option.Rel R a c) (hS : Option.Rel S b d) (hsome : a.isSome = b.isSome)
    (heq : ∀ x y z w, a = some x → b = some y → R x z → S y w → z = w) : c = d := by
  cases hR with
  | none =>
    cases hS with
    | none => rfl
    | some => cases hsome
  | some hx =>
    cases hS with
    | none => cases hsome
    | some hy => rw [heq _ _ _ _ rfl rfl hx hy]

theorem forall₂_flatMap {δ : Type} {R : γ → δ → Prop} {f : α → List γ} {g : β → List δ}
    {xs : List α} {ys : List β} (h : List.Forall₂ (fun x y => List.Forall₂ R (f x) (g y)) xs ys) :
    List.Forall₂ R (xs.flatMap f) (ys.flatMap g) := by
  induction h with
  | nil => exact .nil
  | cons hxy _ ih =>
    rw [List.flatMap_cons, List.flatMap_cons]
    exact List.rel_append hxy ih

theorem foldlM_invariant {f : β → α → Except ε β} {P : β → Prop} {xs : List α} {b b' : β}
    (h : xs.foldlM f b = .ok b') (hb : P b)
    (hstep : ∀ b x b', x ∈ xs → P b → f b x = .ok b' → P b') : P b' := by
  induction xs generalizing b with
  | nil => exact pure_eq_ok.1 h ▸ hb
  | cons x xs ih =>
    rw [List.foldlM_cons] at h
    obtain ⟨c, hc, h⟩ := bind_eq_ok.1 h
    exact ih h (hstep b x c List.mem_cons_self hb hc)
      fun b x b' hx => hstep b x b' (List.mem_cons_of_mem _ hx)

theorem mapM_eq_ok {f : α → Except ε β} {xs : List α} {ys : List β} :
    xs.mapM f = .ok ys ↔ List.Forall₂ (fun x y => f x = .ok y) xs ys :=
  traverse_eq_ok List.mapM_nil fun _ _ => List.mapM_cons

theorem exists_mapM {f : α → Except ε β} {R : α → β → Prop} {xs : List α}
    (h : ∀ x ∈ xs, ∃ y, f x = .ok y ∧ R x y) : ∃ ys, xs.mapM f = .ok ys ∧ List.Forall₂ R xs ys := by
  obtain ⟨ys, hys⟩ := exists_forall₂ h
  exact ⟨ys, mapM_eq_ok.2 (hys.imp fun _ _ hy => hy.1), hys.imp fun _ _ hy => hy.2⟩

theorem mapM_congr {f g : α → Except ε β} {xs : List α} (h : ∀ x ∈ xs, f x = g x) :
    xs.mapM f = xs.mapM g := by
  induction xs with
  | nil => rfl
  | cons x xs ih =>
    rw [List.forall_mem_cons] at h
    rw [List.mapM_cons, List.mapM_cons, h.1, ih h.2]

end

/-! ## The first of some items -/

section

variable {ι κ : Type} {R R' : ι → Prop} {xs ys : List ι} {x y : ι}

/-- The first of some items that has a property. -/
def IsFirst (R : ι → Prop) (xs : List ι) (x : ι) : Prop :=
  ∃ before after, xs = before ++ x :: after ∧ R x ∧ ∀ y ∈ before, ¬R y

namespace IsFirst

theorem mem (h : IsFirst R xs x) : x ∈ xs := by
  obtain ⟨before, after, rfl, -⟩ := h
  simp

theorem holds (h : IsFirst R xs x) : R x := by
  obtain ⟨before, after, -, hx, -⟩ := h
  exact hx

theorem append_right (h : IsFirst R xs x) (ys : List ι) : IsFirst R (xs ++ ys) x := by
  obtain ⟨before, after, rfl, hx, hbefore⟩ := h
  exact ⟨before, after ++ ys, by simp, hx, hbefore⟩

theorem append_left (h : IsFirst R ys y) (hxs : ∀ x ∈ xs, ¬R x) : IsFirst R (xs ++ ys) y := by
  obtain ⟨before, after, rfl, hy, hbefore⟩ := h
  refine ⟨xs ++ before, after, by simp, hy, fun z hz => ?_⟩
  rcases List.mem_append.1 hz with hz | hz
  · exact hxs z hz
  · exact hbefore z hz

theorem unique (h : IsFirst R xs x) (h' : IsFirst R xs y) : x = y := by
  classical
  have hfind : ∀ z, IsFirst R xs z → xs.find? (fun z => decide (R z)) = some z := by
    rintro z ⟨before, after, heq, hz, hbefore⟩
    rw [List.find?_eq_some_iff_append]
    exact ⟨by simpa using hz, before, after, heq, by simpa using hbefore⟩
  exact Option.some.inj ((hfind x h).symm.trans (hfind y h'))

theorem congr (h : IsFirst R xs x) (hR : ∀ y ∈ xs, R y ↔ R' y) : IsFirst R' xs x := by
  have hx := (hR x h.mem).1 h.holds
  obtain ⟨before, after, rfl, -, hbefore⟩ := h
  exact ⟨before, after, rfl, hx, fun y hy => mt (hR y (List.mem_append_left _ hy)).2 (hbefore y hy)⟩

theorem map {f : κ → ι} {zs : List κ} {z : κ} (h : IsFirst (fun z => R (f z)) zs z) :
    IsFirst R (zs.map f) (f z) := by
  obtain ⟨before, after, rfl, hz, hbefore⟩ := h
  exact ⟨before.map f, after.map f, by simp, hz, by simpa using hbefore⟩

end IsFirst

theorem exists_isFirst (hx : x ∈ xs) (h : R x) : ∃ y, IsFirst R xs y := by
  induction xs with
  | nil => simp at hx
  | cons z xs ih =>
    by_cases hz : R z
    · exact ⟨z, [], xs, rfl, hz, by simp⟩
    · have hne : x ≠ z := fun heq => hz (heq ▸ h)
      obtain ⟨y, hy⟩ := ih ((List.mem_cons.1 hx).resolve_left hne)
      exact ⟨y, hy.append_left (show ∀ w ∈ [z], ¬R w by simpa using hz)⟩

end

end Typegen
