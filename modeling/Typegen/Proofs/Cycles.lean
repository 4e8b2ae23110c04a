import Mathlib.Logic.Relation
import Typegen.Proofs.Keys
import Typegen.Schema.Reference

/-!
# Cycles are found

The search for cycles finds the names that lead back to themselves, and two of them have one
component exactly when they lead to each other.  The names that are worked on cut the stack into
pieces: `Frame` says what is known of such a name and the names between it and the next one, and
`Frames` puts the frames on top of each other.  Every step changes the topmost frame or merges it
into the one below, and a frame that leads back to nothing below it is a component.
-/

namespace Typegen.Schema

open Relation (ReflTransGen TransGen)

/-- There is an edge from a name to another. -/
def Edge (edges : List (String × List String)) (a b : String) : Prop := b ∈ successors edges a

/-- Two names lead to each other. -/
def Linked (edges : List (String × List String)) (a b : String) : Prop :=
  ReflTransGen (Edge edges) a b ∧ ReflTransGen (Edge edges) b a

variable {edges : List (String × List String)}

theorem Linked.refl (a : String) : Linked edges a a := ⟨.refl, .refl⟩

variable {a b : String}

theorem Linked.symm (h : Linked edges a b) : Linked edges b a := ⟨h.2, h.1⟩

theorem Linked.trans {c : String} (hab : Linked edges a b) (hbc : Linked edges b c) :
    Linked edges a c :=
  ⟨hab.1.trans hbc.1, hbc.2.trans hab.2⟩

/-- A name that is linked with another one lies on a cycle. -/
theorem Linked.transGen (h : Linked edges a b) (hne : a ≠ b) : TransGen (Edge edges) a a := by
  rcases Relation.reflTransGen_iff_eq_or_transGen.1 h.1 with heq | hab
  · exact absurd heq.symm hne
  · exact hab.trans_left h.2

namespace CycleSearch

variable {s s' : CycleSearch} {name : String} {n : Nat} {above below : List String}
  {rest work : List (String × Nat)} {stack : List String}

/-! ## Numbers -/

theorem number_enter (s : CycleSearch) (name v : String) :
    (s.enter name).number v = if v = name then s.index.length else s.number v := by
  rw [number, enter, lookup_cons_eq]
  split <;> rfl

theorem low_enter (s : CycleSearch) (name v : String) :
    (s.enter name).low v = if v = name then s.index.length else s.low v := by
  rw [low, enter, lookup_setMember]
  split <;> rfl

theorem low_lower (s : CycleSearch) (name : String) (k : Nat) (v : String) :
    (s.lower name k).low v = if v = name then min (s.low name) k else s.low v := by
  rw [low, lower, lookup_setMember]
  split <;> rfl

/-! ## Names that are worked on -/

/-- The names that edges lead to which have been followed: all edges of the names above a name, and
the first edges of the name itself. -/
def followed (edges : List (String × List String)) (name : String) (n : Nat)
    (above : List String) : List String :=
  above.flatMap (successors edges) ++ (successors edges name).take n

/-- What is known of a name that is worked on, by the names above it on the stack up to the next
such name, and the names below it. -/
structure Frame (edges : List (String × List String)) (s : CycleSearch) (name : String) (n : Nat)
    (above below : List String) : Prop where
  linked : ∀ v ∈ above, Linked edges name v
  later : ∀ v ∈ above, s.number name ≤ s.number v
  earlier : ∀ w ∈ below, s.number w < s.number name
  met : ∀ w ∈ followed edges name n above, s.hasMet w = true
  low_le : s.low name ≤ s.number name
  low_le_followed : ∀ w ∈ followed edges name n above, w ∈ below → s.low name ≤ s.number w
  leads : s.low name = s.number name ∨
    ∃ w ∈ below, s.number w = s.low name ∧ ReflTransGen (Edge edges) name w

/-- The names that are worked on, each met from the one before it, cut the stack into frames. -/
inductive Frames (edges : List (String × List String)) (s : CycleSearch) :
    List (String × Nat) → List String → Prop
  | nil : Frames edges s [] []
  | cons {name : String} {n : Nat} {rest : List (String × Nat)} {above below : List String}
      (hframe : Frame edges s name n above below) (hcaller : ∀ c ∈ rest.head?, Edge edges c.1 name)
      (hrest : Frames edges s rest below) :
      Frames edges s ((name, n) :: rest) (above ++ name :: below)

theorem Frame.congr (h : Frame edges s name n above below)
    (hmet : ∀ v, s.hasMet v = true → s'.hasMet v = true)
    (hnumber : ∀ v ∈ above ++ name :: below, s'.number v = s.number v)
    (hlow : s'.low name = s.low name) : Frame edges s' name n above below := by
  have hname := hnumber name (by simp)
  have habove : ∀ v ∈ above, s'.number v = s.number v := fun v hv => hnumber v (by simp [hv])
  have hbelow : ∀ v ∈ below, s'.number v = s.number v := fun v hv => hnumber v (by simp [hv])
  refine ⟨h.linked, fun v hv => ?_, fun w hw => ?_, fun w hw => hmet w (h.met w hw), ?_,
    fun w hw hwb => ?_, ?_⟩
  · rw [hname, habove v hv]
    exact h.later v hv
  · rw [hname, hbelow w hw]
    exact h.earlier w hw
  · rw [hname, hlow]
    exact h.low_le
  · rw [hlow, hbelow w hwb]
    exact h.low_le_followed w hw hwb
  · rw [hname, hlow]
    refine h.leads.imp_right ?_
    rintro ⟨w, hw, heq, hleads⟩
    exact ⟨w, hw, (hbelow w hw).trans heq, hleads⟩

theorem Frames.congr (h : Frames edges s work stack)
    (hmet : ∀ v, s.hasMet v = true → s'.hasMet v = true)
    (hnumber : ∀ v ∈ stack, s'.number v = s.number v)
    (hlow : ∀ w ∈ work, s'.low w.1 = s.low w.1) : Frames edges s' work stack := by
  induction h with
  | nil => exact .nil
  | cons hframe hcaller _ ih =>
    rw [List.forall_mem_cons] at hlow
    exact .cons (hframe.congr hmet hnumber hlow.1) hcaller
      (ih (fun v hv => hnumber v (by simp [hv])) hlow.2)

theorem Frames.mem_stack (h : Frames edges s work stack) {w : String × Nat} (hw : w ∈ work) :
    w.1 ∈ stack := by
  induction h with
  | nil => simp at hw
  | cons _ _ _ ih =>
    rcases List.mem_cons.1 hw with rfl | hw
    · simp
    · simp [ih hw]

/-- All names on the stack lead to the name that is worked on. -/
theorem Frames.leads (h : Frames edges s work stack) {c : String × Nat} (hc : c ∈ work.head?) :
    ∀ v ∈ stack, ReflTransGen (Edge edges) v c.1 := by
  induction h generalizing c with
  | nil => cases hc
  | cons hframe hcaller hrest ih =>
    obtain rfl := Option.some.inj hc
    intro v hv
    rcases List.mem_append.1 hv with hv | hv
    · exact (hframe.linked v hv).2
    · rcases List.mem_cons.1 hv with rfl | hv
      · exact .refl
      · cases hrest with
        | nil => simp at hv
        | cons => exact (ih rfl v hv).tail (hcaller _ rfl)

variable {target v : String}

/-- One more edge of a name has been followed. -/
theorem Frame.advance (h : Frame edges s name n above below)
    (htarget : (successors edges name)[n]? = some target) (hmet : s.hasMet target = true)
    (hlow : target ∈ below → s.low name ≤ s.number target) :
    Frame edges s name (n + 1) above below := by
  have hfollowed : followed edges name (n + 1) above = followed edges name n above ++ [target] := by
    rw [followed, followed, List.take_add_one, htarget, List.append_assoc]
    rfl
  refine ⟨h.linked, h.later, h.earlier, fun w hw => ?_, h.low_le, fun w hw hwb => ?_, h.leads⟩
  · rw [hfollowed, List.mem_append, List.mem_singleton] at hw
    rcases hw with hw | rfl
    · exact h.met w hw
    · exact hmet
  · rw [hfollowed, List.mem_append, List.mem_singleton] at hw
    rcases hw with hw | rfl
    · exact h.low_le_followed w hw hwb
    · exact hlow hwb

/-- The low number of a name may be lowered to the number of a name below that it leads to. -/
theorem Frame.lower (h : Frame edges s name n above below) {k : Nat}
    (hk : k < s.low name → ∃ w ∈ below, s.number w = k ∧ ReflTransGen (Edge edges) name w) :
    Frame edges (s.lower name k) name n above below := by
  have hlow : (s.lower name k).low name = min (s.low name) k := by rw [low_lower, if_pos rfl]
  refine ⟨h.linked, h.later, h.earlier, h.met, ?_, fun w hw hwb => ?_, ?_⟩
  · rw [hlow]
    exact Nat.le_trans (Nat.min_le_left _ _) h.low_le
  · rw [hlow]
    exact Nat.le_trans (Nat.min_le_left _ _) (h.low_le_followed w hw hwb)
  · rw [hlow]
    by_cases hlt : k < s.low name
    · rw [Nat.min_eq_right (by omega)]
      exact .inr (hk hlt)
    · rw [Nat.min_eq_left (by omega)]
      exact h.leads

/-- A frame whose name leads back into the frame below becomes part of it. -/
theorem Frame.absorb {caller : String} {m : Nat} {above' below' : List String}
    (h : Frame edges s name n above below) (hcaller : Frame edges s caller m above' below')
    (hbelow : below = above' ++ caller :: below') (hall : (successors edges name).length ≤ n)
    (hlow : s.low caller ≤ s.low name) (hlinked : Linked edges caller name) :
    Frame edges s caller m (above ++ name :: above') below' := by
  have hfollowed : ∀ w ∈ followed edges caller m (above ++ name :: above'),
      w ∈ followed edges name n above ∨ w ∈ followed edges caller m above' := by
    intro w hw
    rw [followed, List.take_of_length_le hall]
    simp only [followed, List.flatMap_append, List.flatMap_cons, List.mem_append] at hw ⊢
    tauto
  refine ⟨fun v hv => ?_, fun v hv => ?_, hcaller.earlier, fun w hw => ?_, hcaller.low_le,
    fun w hw hwb => ?_, hcaller.leads⟩
  · rcases List.mem_append.1 hv with hv | hv
    · exact hlinked.trans (h.linked v hv)
    · rcases List.mem_cons.1 hv with rfl | hv
      · exact hlinked
      · exact hcaller.linked v hv
  · have hlt := h.earlier caller (by simp [hbelow])
    rcases List.mem_append.1 hv with hv | hv
    · exact Nat.le_trans (Nat.le_of_lt hlt) (h.later v hv)
    · rcases List.mem_cons.1 hv with rfl | hv
      · exact Nat.le_of_lt hlt
      · exact hcaller.later v hv
  · exact (hfollowed w hw).elim (h.met w) (hcaller.met w)
  · rcases hfollowed w hw with hw | hw
    · exact Nat.le_trans hlow (h.low_le_followed w hw (by simp [hbelow, hwb]))
    · exact hcaller.low_le_followed w hw hwb

/-! ## Names whose component is known -/

/-- A name that was met and is no longer on the stack. -/
def Settled (s : CycleSearch) (v : String) : Prop := s.hasMet v = true ∧ v ∉ s.stack

/-- What is known of all names that have been met: they have different numbers, edges lead from
settled names to settled names, and the components of settled names are right. -/
structure Consistent (edges : List (String × List String)) (s : CycleSearch) : Prop where
  nodup : s.stack.Nodup
  met : ∀ v ∈ s.stack, s.hasMet v = true
  number_lt : ∀ v, s.hasMet v = true → s.number v < s.index.length
  number_inj : ∀ v w, s.hasMet v = true → s.hasMet w = true → s.number v = s.number w → v = w
  settled : ∀ v w, s.Settled v → Edge edges v w → s.Settled w
  cyclic : ∀ v, (s.components.lookup v).isSome = true ↔
    s.Settled v ∧ TransGen (Edge edges) v v
  root : ∀ v k, s.components.lookup v = some k →
    ∃ r, s.Settled r ∧ s.number r = k ∧ Linked edges v r
  same : ∀ v w, s.Settled v → Linked edges v w → s.components.lookup v = s.components.lookup w

theorem consistent_init : Consistent edges {} := by
  constructor <;> simp [Settled, hasMet]

theorem Consistent.congr (h : Consistent edges s) (hindex : s'.index = s.index)
    (hstack : s'.stack = s.stack) (hcomponents : s'.components = s.components) :
    Consistent edges s' := by
  obtain ⟨work, index, lowlink, stack, components⟩ := s
  obtain ⟨work', index', lowlink', stack', components'⟩ := s'
  obtain rfl : index' = index := hindex
  obtain rfl : stack' = stack := hstack
  obtain rfl : components' = components := hcomponents
  exact ⟨h.nodup, h.met, h.number_lt, h.number_inj, h.settled, h.cyclic, h.root, h.same⟩

/-- Names that are reached from a settled name are settled. -/
theorem Consistent.settled_of_leads (h : Consistent edges s) {w : String} (hv : s.Settled v)
    (hleads : ReflTransGen (Edge edges) v w) : s.Settled w := by
  induction hleads with
  | refl => exact hv
  | tail _ hedge ih => exact h.settled _ _ ih hedge

theorem settled_enter (hnew : s.hasMet name = false) : (s.enter name).Settled v ↔ s.Settled v := by
  have hstack : (s.enter name).stack = name :: s.stack := rfl
  rw [Settled, Settled, hasMet_enter, hstack, List.mem_cons, not_or, Bool.or_eq_true, beq_iff_eq]
  constructor
  · rintro ⟨rfl | hmet, hne, hv⟩
    · exact absurd rfl hne
    · exact ⟨hmet, hv⟩
  · rintro ⟨hmet, hv⟩
    refine ⟨.inr hmet, ?_, hv⟩
    rintro rfl
    rw [hnew] at hmet
    cases hmet

theorem Consistent.enter (h : Consistent edges s) (hnew : s.hasMet name = false) :
    Consistent edges (s.enter name) := by
  have hnot : ∀ v, s.hasMet v = true → v ≠ name := by
    rintro v hv rfl
    rw [hnew] at hv
    cases hv
  have hlength : (s.enter name).index.length = s.index.length + 1 := rfl
  refine ⟨List.nodup_cons.2 ⟨fun hmem => hnot name (h.met name hmem) rfl, h.nodup⟩, ?_, ?_, ?_, ?_,
    ?_, ?_, ?_⟩
  · intro v hv
    rw [hasMet_enter, Bool.or_eq_true, beq_iff_eq]
    exact (List.mem_cons.1 hv).imp_right (h.met v)
  · intro v hv
    rw [hasMet_enter, Bool.or_eq_true, beq_iff_eq] at hv
    rw [number_enter, hlength]
    rcases hv with rfl | hv
    · rw [if_pos rfl]
      omega
    · rw [if_neg (hnot v hv)]
      exact Nat.lt_succ_of_lt (h.number_lt v hv)
  · intro v w hv hw heq
    rw [hasMet_enter, Bool.or_eq_true, beq_iff_eq] at hv hw
    rw [number_enter, number_enter] at heq
    rcases hv with rfl | hv <;> rcases hw with rfl | hw
    · rfl
    · have := h.number_lt w hw
      rw [if_pos rfl, if_neg (hnot w hw)] at heq
      omega
    · have := h.number_lt v hv
      rw [if_pos rfl, if_neg (hnot v hv)] at heq
      omega
    · rw [if_neg (hnot v hv), if_neg (hnot w hw)] at heq
      exact h.number_inj v w hv hw heq
  · intro v w hv hedge
    rw [settled_enter hnew] at hv ⊢
    exact h.settled v w hv hedge
  · intro v
    rw [settled_enter hnew]
    exact h.cyclic v
  · intro v k hk
    obtain ⟨r, hr, heq, hlinked⟩ := h.root v k hk
    refine ⟨r, (settled_enter hnew).2 hr, ?_, hlinked⟩
    rw [number_enter, if_neg (hnot r hr.1)]
    exact heq
  · intro v w hv hlinked
    exact h.same v w ((settled_enter hnew).1 hv) hlinked

/-! ## Closing a component -/

theorem lookup_map_append (names : List String) (k : Nat) (es : List (String × Nat)) (v : String) :
    (names.map (·, k) ++ es).lookup v = if v ∈ names then some k else es.lookup v := by
  induction names with
  | nil => simp
  | cons name names ih =>
    rw [List.map_cons, List.cons_append, lookup_cons_eq, ih]
    by_cases h : v = name <;> simp [h]

/-- The names on the stack down to the given one are linked, and no edge leads from them to a name
below: they are a component. -/
structure Closing (edges : List (String × List String)) (s : CycleSearch) (name : String)
    (above below : List String) : Prop where
  consistent : Consistent edges s
  stack_eq : s.stack = above ++ name :: below
  linked : ∀ v ∈ above, Linked edges name v
  out : ∀ v ∈ above ++ [name], ∀ w, Edge edges v w → s.hasMet w = true ∧ w ∉ below

/-- Whether a component is a cycle: it has several names, or an edge from its name to itself. -/
def isCycle (edges : List (String × List String)) (name : String) (above : List String) : Bool :=
  decide (1 < (above ++ [name]).length) || (successors edges name).contains name

namespace Closing

variable (h : Closing edges s name above below) {v w : String}

include h

theorem notMem_above : name ∉ above := by
  have hnodup := h.consistent.nodup
  rw [h.stack_eq, List.nodup_append'] at hnodup
  exact fun hmem => hnodup.2.2 hmem List.mem_cons_self

theorem mem_stack : v ∈ s.stack ↔ v ∈ above ++ [name] ∨ v ∈ below := by
  simp [h.stack_eq, or_assoc]

theorem close_eq : s.close edges name =
    { s with
      stack := below
      components := (if isCycle edges name above then (above ++ [name]).map (·, s.number name)
        else []) ++ s.components } := by
  have hne : ∀ v ∈ above, decide (v ≠ name) = true := by
    intro v hv
    rw [decide_eq_true_eq]
    exact fun heq => h.notMem_above (heq ▸ hv)
  simp only [close, isCycle, h.stack_eq, List.takeWhile_append_of_pos hne,
    List.dropWhile_append_of_pos hne]
  simp

theorem settled_close : (s.close edges name).Settled v ↔ v ∈ above ++ [name] ∨ s.Settled v := by
  have hnodup := h.consistent.nodup
  rw [h.stack_eq, ← List.singleton_append, ← List.append_assoc, List.nodup_append'] at hnodup
  rw [h.close_eq]
  constructor
  · rintro ⟨hmet, hv⟩
    by_cases hin : v ∈ above ++ [name]
    · exact .inl hin
    · exact .inr ⟨hmet, fun hs => (h.mem_stack.1 hs).elim hin hv⟩
  · rintro (hin | ⟨hmet, hv⟩)
    · exact ⟨h.consistent.met v (h.mem_stack.2 (.inl hin)), fun hbelow => hnodup.2.2 hin hbelow⟩
    · exact ⟨hmet, fun hbelow => hv (h.mem_stack.2 (.inr hbelow))⟩

theorem not_settled (hv : v ∈ above ++ [name]) : ¬s.Settled v :=
  fun hsettled => hsettled.2 (h.mem_stack.2 (.inl hv))

/-- Nothing but the component and settled names is reached from the component. -/
theorem mem_or_settled (hv : v ∈ above ++ [name]) (hleads : ReflTransGen (Edge edges) v w) :
    w ∈ above ++ [name] ∨ s.Settled w := by
  induction hleads with
  | refl => exact .inl hv
  | @tail u w _ hedge ih =>
    rcases ih with hu | hu
    · obtain ⟨hmet, hbelow⟩ := h.out u hu w hedge
      by_cases hw : w ∈ above ++ [name]
      · exact .inl hw
      · exact .inr ⟨hmet, fun hs => (h.mem_stack.1 hs).elim hw hbelow⟩
    · exact .inr (h.consistent.settled u w hu hedge)

theorem mem_of_linked (hv : v ∈ above ++ [name]) (hvw : Linked edges v w) :
    w ∈ above ++ [name] := by
  rcases h.mem_or_settled hv hvw.1 with hw | hw
  · exact hw
  · exact absurd (h.consistent.settled_of_leads hw hvw.2) (h.not_settled hv)

theorem linked_name (hv : v ∈ above ++ [name]) : Linked edges v name := by
  rcases List.mem_append.1 hv with hv | hv
  · exact (h.linked v hv).symm
  · rw [List.mem_singleton.1 hv]
    exact .refl _

theorem isCycle_iff (hv : v ∈ above ++ [name]) :
    isCycle edges name above = true ↔ TransGen (Edge edges) v v := by
  rw [isCycle, Bool.or_eq_true, decide_eq_true_eq, List.contains_iff_mem]
  constructor
  · intro hcycle
    by_cases hne : v = name
    · subst hne
      rcases hcycle with hlength | hloop
      · obtain ⟨u, hu⟩ : ∃ u, u ∈ above := List.exists_mem_of_length_pos (by simpa using hlength)
        exact (h.linked u hu).transGen fun heq => h.notMem_above (heq ▸ hu)
      · exact .single hloop
    · exact (h.linked_name hv).transGen hne
  · intro hcycle
    cases above with
    | cons u above => exact .inl (by simp)
    | nil =>
      obtain rfl := List.mem_singleton.1 hv
      obtain ⟨w, hedge, hback⟩ := Relation.TransGen.head'_iff.1 hcycle
      have hw := h.mem_of_linked hv ⟨.single hedge, hback⟩
      rw [List.nil_append, List.mem_singleton] at hw
      exact .inr (hw ▸ hedge)

theorem lookup_of_mem (hv : v ∈ above ++ [name]) : (s.close edges name).components.lookup v =
    if isCycle edges name above then some (s.number name) else none := by
  have hnone : s.components.lookup v = none := by
    rw [← Option.not_isSome_iff_eq_none, h.consistent.cyclic]
    exact fun hsettled => h.not_settled hv hsettled.1
  rw [h.close_eq]
  split
  · rw [lookup_map_append, if_pos hv]
  · rw [List.nil_append, hnone]

theorem lookup_of_notMem (hv : v ∉ above ++ [name]) :
    (s.close edges name).components.lookup v = s.components.lookup v := by
  rw [h.close_eq]
  split
  · rw [lookup_map_append, if_neg hv]
  · rw [List.nil_append]

theorem consistent_close : Consistent edges (s.close edges name) := by
  have hs := h.consistent
  have hhasMet : ∀ v, (s.close edges name).hasMet v = s.hasMet v := fun _ => rfl
  have hstack : (s.close edges name).stack = below := by rw [h.close_eq]
  refine ⟨?_, ?_, hs.number_lt, hs.number_inj, ?_, ?_, ?_, ?_⟩
  · have hnodup := hs.nodup
    rw [h.stack_eq] at hnodup
    rw [hstack]
    exact (List.nodup_cons.1 hnodup.of_append_right).2
  · intro v hv
    rw [hstack] at hv
    exact hs.met v (h.mem_stack.2 (.inr hv))
  · intro v w hv hedge
    rw [h.settled_close] at hv ⊢
    rcases hv with hv | hv
    · exact h.mem_or_settled hv (.single hedge)
    · exact .inr (hs.settled v w hv hedge)
  · intro v
    rw [h.settled_close]
    by_cases hv : v ∈ above ++ [name]
    · rw [h.lookup_of_mem hv, ← h.isCycle_iff hv]
      cases isCycle edges name above <;> simp [hv]
    · rw [h.lookup_of_notMem hv, hs.cyclic]
      simp only [hv, false_or]
  · intro v k hk
    by_cases hv : v ∈ above ++ [name]
    · rw [h.lookup_of_mem hv] at hk
      refine ⟨name, h.settled_close.2 (.inl (by simp)), ?_, h.linked_name hv⟩
      split at hk
      · exact Option.some.inj hk
      · cases hk
    · rw [h.lookup_of_notMem hv] at hk
      obtain ⟨r, hr, heq, hlinked⟩ := hs.root v k hk
      exact ⟨r, h.settled_close.2 (.inr hr), heq, hlinked⟩
  · intro v w hv hlinked
    by_cases hin : v ∈ above ++ [name]
    · rw [h.lookup_of_mem hin, h.lookup_of_mem (h.mem_of_linked hin hlinked)]
    · have hout : w ∉ above ++ [name] := fun hw => hin (h.mem_of_linked hw hlinked.symm)
      rw [h.lookup_of_notMem hin, h.lookup_of_notMem hout]
      exact hs.same v w ((h.settled_close.1 hv).resolve_left hin) hlinked

end Closing

/-! ## Steps -/

theorem Frames.of_cons (h : Frames edges s ((name, n) :: rest) stack) :
    ∃ above below, stack = above ++ name :: below ∧ Frame edges s name n above below ∧
      (∀ c ∈ rest.head?, Edge edges c.1 name) ∧ Frames edges s rest below := by
  cases h with
  | cons hframe hcaller hrest => exact ⟨_, _, rfl, hframe, hcaller, hrest⟩

/-- The names that are worked on cut the stack into frames, and the names that have been met are
known as they should be. -/
structure Underway (edges : List (String × List String)) (s : CycleSearch)
    (work : List (String × Nat)) : Prop where
  consistent : Consistent edges s
  frames : Frames edges s work s.stack

theorem Underway.congr (h : Underway edges s work) (hindex : s'.index = s.index)
    (hlow : ∀ v, s'.low v = s.low v) (hstack : s'.stack = s.stack)
    (hcomponents : s'.components = s.components) : Underway edges s' work := by
  refine ⟨h.consistent.congr hindex hstack hcomponents, ?_⟩
  rw [hstack]
  refine h.frames.congr (fun v hv => ?_) (fun v _ => ?_) fun w _ => hlow w.1
  · rwa [hasMet, hindex]
  · rw [number, number, hindex]

/-- A name that has not been met is put on top of the names that are worked on. -/
theorem Underway.enter (h : Consistent edges s) (hnew : s.hasMet name = false)
    (hframes : Frames edges (s.enter name) work s.stack)
    (hcaller : ∀ c ∈ work.head?, Edge edges c.1 name) :
    Underway edges (s.enter name) ((name, 0) :: work) := by
  have hnumber : (s.enter name).number name = s.index.length := by rw [number_enter, if_pos rfl]
  have hlow : (s.enter name).low name = s.index.length := by rw [low_enter, if_pos rfl]
  have hframe : Frame edges (s.enter name) name 0 [] s.stack := by
    refine ⟨by simp, by simp, fun w hw => ?_, by simp [followed], ?_, by simp [followed], ?_⟩
    · have hne : w ≠ name := by
        rintro rfl
        rw [h.met w hw] at hnew
        cases hnew
      rw [hnumber, number_enter, if_neg hne]
      exact h.number_lt w (h.met w hw)
    · exact Nat.le_of_eq (hlow.trans hnumber.symm)
    · exact .inl (hlow.trans hnumber.symm)
  exact ⟨h.enter hnew, .cons hframe hcaller hframes⟩

/-- The next edge leads to a name that has not been met. -/
theorem Underway.descend (h : Underway edges s ((name, n) :: rest))
    (htarget : (successors edges name)[n]? = some target) (hnew : s.hasMet target = false) :
    Underway edges (s.enter target) ((target, 0) :: (name, n + 1) :: rest) := by
  have hne : ∀ v, s.hasMet v = true → v ≠ target := by
    rintro v hv rfl
    rw [hnew] at hv
    cases hv
  have hframes : Frames edges (s.enter target) ((name, n) :: rest) s.stack := by
    refine h.frames.congr (fun v hv => ?_) (fun v hv => ?_) fun w hw => ?_
    · rw [hasMet_enter, hv, Bool.or_true]
    · rw [number_enter, if_neg (hne v (h.consistent.met v hv))]
    · rw [low_enter, if_neg (hne w.1 (h.consistent.met _ (h.frames.mem_stack hw)))]
  obtain ⟨above, below, hstack, hframe, hcaller, hrest⟩ := hframes.of_cons
  have hmet : (s.enter target).hasMet target = true := by
    rw [hasMet_enter, beq_self_eq_true, Bool.true_or]
  have hbelow : target ∉ below := fun hmem =>
    hne target (h.consistent.met target (by simp [hstack, hmem])) rfl
  refine .enter h.consistent hnew ?_ ?_
  · rw [hstack]
    exact .cons (hframe.advance htarget hmet fun hmem => absurd hmem hbelow) hcaller hrest
  · intro c hc
    obtain rfl := Option.some.inj hc
    exact List.mem_of_getElem? htarget

/-- The next edge leads back to a name on the stack. -/
theorem Underway.back (h : Underway edges s ((name, n) :: rest))
    (htarget : (successors edges name)[n]? = some target) (hmem : target ∈ s.stack) :
    Underway edges (s.lower name (s.number target)) ((name, n + 1) :: rest) := by
  obtain ⟨above, below, hstack, hframe, hcaller, hrest⟩ := h.frames.of_cons
  have hnodup := h.consistent.nodup
  rw [hstack, List.nodup_append', List.nodup_cons] at hnodup
  have hlower : Frame edges (s.lower name (s.number target)) name n above below := by
    refine hframe.lower fun hlt => ⟨target, ?_, rfl, .single (List.mem_of_getElem? htarget)⟩
    -- A name above or the name itself has a number that is too large.
    have hle := hframe.low_le
    rw [hstack, List.mem_append, List.mem_cons] at hmem
    rcases hmem with hmem | rfl | hmem
    · have := hframe.later target hmem
      omega
    · omega
    · exact hmem
  refine ⟨h.consistent.congr rfl rfl rfl, ?_⟩
  rw [show (s.lower name (s.number target)).stack = s.stack from rfl, hstack]
  refine .cons (hlower.advance htarget (h.consistent.met target hmem) fun _ => ?_) hcaller ?_
  · rw [low_lower, if_pos rfl]
    exact Nat.min_le_right _ _
  · refine hrest.congr (fun _ hv => hv) (fun _ _ => rfl) fun w hw => ?_
    rw [low_lower, if_neg]
    rintro heq
    exact hnodup.2.1.1 (heq ▸ hrest.mem_stack hw)

/-- The next edge leads to a settled name. -/
theorem Underway.pass (h : Underway edges s ((name, n) :: rest))
    (htarget : (successors edges name)[n]? = some target) (hmet : s.hasMet target = true)
    (hmem : target ∉ s.stack) : Underway edges s ((name, n + 1) :: rest) := by
  obtain ⟨above, below, hstack, hframe, hcaller, hrest⟩ := h.frames.of_cons
  refine ⟨h.consistent, ?_⟩
  rw [hstack] at hmem ⊢
  exact .cons (hframe.advance htarget hmet fun hbelow => absurd (by simp [hbelow]) hmem) hcaller
    hrest

/-- The edges of a frame all of whose edges have been followed. -/
theorem mem_followed (hall : (successors edges name).length ≤ n) {w : String}
    (hv : v ∈ above ++ [name]) (hedge : Edge edges v w) : w ∈ followed edges name n above := by
  rw [followed, List.take_of_length_le hall, List.mem_append, List.mem_flatMap]
  rcases List.mem_append.1 hv with hv | hv
  · exact .inl ⟨v, hv, hedge⟩
  · exact .inr (List.mem_singleton.1 hv ▸ hedge)

/-- A name that leads back to no name before itself completes a component. -/
theorem Underway.closing (h : Underway edges s ((name, n) :: rest))
    (hall : (successors edges name).length ≤ n) (hlow : s.low name = s.number name) :
    ∃ above below, Closing edges s name above below ∧ Frames edges s rest below := by
  obtain ⟨above, below, hstack, hframe, -, hrest⟩ := h.frames.of_cons
  refine ⟨above, below, ⟨h.consistent, hstack, hframe.linked, fun v hv w hedge => ?_⟩, hrest⟩
  have hw := mem_followed hall hv hedge
  refine ⟨hframe.met w hw, fun hbelow => ?_⟩
  have hle := hframe.low_le_followed w hw hbelow
  have hlt := hframe.earlier w hbelow
  omega

theorem Underway.close (h : Underway edges s ((name, n) :: rest))
    (hall : (successors edges name).length ≤ n) (hlow : s.low name = s.number name) :
    Underway edges (s.close edges name) rest := by
  obtain ⟨above, below, hclosing, hrest⟩ := h.closing hall hlow
  refine ⟨hclosing.consistent_close, ?_⟩
  rw [show (s.close edges name).stack = below by rw [hclosing.close_eq]]
  exact hrest.congr (fun _ hv => hv) (fun _ _ => rfl) fun _ _ => rfl

theorem Underway.ne_caller {c : String × Nat} (h : Underway edges s ((name, n) :: c :: rest)) :
    name ≠ c.1 := by
  obtain ⟨above, below, -, hframe, -, hrest⟩ := h.frames.of_cons
  rintro rfl
  have := hframe.earlier c.1 (hrest.mem_stack List.mem_cons_self)
  omega

/-- A name that leads back to a name before itself becomes part of the frame below. -/
theorem Underway.merge {caller : String} {m : Nat}
    (h : Underway edges s ((name, n) :: (caller, m) :: rest))
    (hall : (successors edges name).length ≤ n) (hlow : s.low name ≠ s.number name) :
    Underway edges (s.lower caller (s.low name)) ((caller, m) :: rest) := by
  obtain ⟨above, below, hstack, hframe, hcaller, hrest⟩ := h.frames.of_cons
  obtain ⟨above', below', hbelow, hframe', hcaller', hrest'⟩ := hrest.of_cons
  obtain ⟨w, hw, hnumber, hleads⟩ := hframe.leads.resolve_left hlow
  have hedge : Edge edges caller name := hcaller (caller, m) rfl
  have hlinked : Linked edges caller name :=
    ⟨.single hedge, hleads.trans (hrest.leads (c := (caller, m)) rfl w hw)⟩
  have hlower : Frame edges (s.lower caller (s.low name)) caller m above' below' := by
    refine hframe'.lower fun hlt => ⟨w, ?_, hnumber, .head hedge hleads⟩
    have hle := hframe'.low_le
    rw [hbelow, List.mem_append, List.mem_cons] at hw
    rcases hw with hw | rfl | hw
    · have := hframe'.later w hw
      omega
    · omega
    · exact hw
  have hname : (s.lower caller (s.low name)).low name = s.low name := by
    rw [low_lower, if_neg h.ne_caller]
  have hkept : Frame edges (s.lower caller (s.low name)) name n above below :=
    hframe.congr (fun _ hv => hv) (fun _ _ => rfl) hname
  have habsorb : Frame edges (s.lower caller (s.low name)) caller m (above ++ name :: above')
      below' := by
    refine hkept.absorb hlower hbelow hall ?_ hlinked
    rw [hname, low_lower, if_pos rfl]
    exact Nat.min_le_right _ _
  refine ⟨h.consistent.congr rfl rfl rfl, ?_⟩
  have hsplit : (s.lower caller (s.low name)).stack =
      (above ++ name :: above') ++ caller :: below' := by
    rw [List.append_assoc, List.cons_append, ← hbelow]
    exact hstack
  rw [hsplit]
  refine .cons habsorb hcaller' (hrest'.congr (fun _ hv => hv) (fun _ _ => rfl) fun c hc => ?_)
  rw [low_lower, if_neg]
  intro heq
  have := hframe'.earlier c.1 (hrest'.mem_stack hc)
  rw [heq] at this
  omega

/-- Passing on what leads back to nothing changes no low number. -/
theorem Underway.low_passOn (h : Underway edges s ((name, n) :: rest))
    (hlow : s.low name = s.number name) (v : String) : (s.passOn name rest).low v = s.low v := by
  cases rest with
  | nil => rfl
  | cons c rest =>
    obtain ⟨caller, m⟩ := c
    obtain ⟨above, below, -, hframe, -, hrest⟩ := h.frames.of_cons
    obtain ⟨above', below', hbelow, hframe', -, -⟩ := hrest.of_cons
    have hlt := hframe.earlier caller (by simp [hbelow])
    have hle := hframe'.low_le
    rw [passOn, low_lower]
    split
    · next heq =>
      rw [heq, Nat.min_eq_left (by omega)]
    · rfl

/-- All edges of a name have been followed. -/
theorem Underway.leave (h : Underway edges s ((name, n) :: rest))
    (hall : (successors edges name).length ≤ n) :
    Underway edges (s.leave edges name rest) rest := by
  have hindex := index_passOn s name rest
  have hstack : (s.passOn name rest).stack = s.stack := by cases rest <;> rfl
  have hcomponents : (s.passOn name rest).components = s.components := by cases rest <;> rfl
  have hnumber : (s.passOn name rest).number name = s.number name := by
    rw [number, number, hindex]
  unfold CycleSearch.leave
  by_cases hlow : s.low name = s.number name
  · have hlows := h.low_passOn hlow
    have hleft : Underway edges { s.passOn name rest with work := rest } ((name, n) :: rest) :=
      h.congr hindex hlows hstack hcomponents
    have hroot := (hlows name).trans (hlow.trans hnumber.symm)
    exact if_pos hroot ▸ hleft.close hall hroot
  · cases rest with
    | nil =>
      obtain ⟨above, below, -, hframe, -, hrest⟩ := h.frames.of_cons
      cases hrest
      rcases hframe.leads with heq | ⟨w, hw, -⟩
      · exact absurd heq hlow
      · simp at hw
    | cons c rest =>
      have hmerge := h.merge hall hlow
      have hroot : (s.passOn name (c :: rest)).low name ≠
          (s.passOn name (c :: rest)).number name := by
        rw [hnumber, passOn, low_lower, if_neg h.ne_caller]
        exact hlow
      exact if_neg hroot ▸ hmerge.congr rfl (fun _ => rfl) rfl rfl

/-! ## Runs -/

/-- The invariant of the search: once the first name is met, the frames are as they should be, and
only the first name can be new. -/
structure Ready (edges : List (String × List String)) (s : CycleSearch) : Prop where
  underway : Underway edges s.entered s.work
  begun : ∀ w ∈ s.work.tail, w.2 ≠ 0

theorem entered_of_begun (h : ∀ w ∈ s.work, w.2 ≠ 0) : s.entered = s := by
  unfold entered
  split
  · next hwork => exact absurd rfl (h _ (hwork ▸ List.mem_cons_self))
  · rfl

/-- Every step keeps the invariant. -/
theorem Ready.step (h : Ready edges s) : Ready edges (s.step edges) := by
  cases hwork : s.work with
  | nil =>
    rw [CycleSearch.step, hwork]
    exact h
  | cons w rest =>
    obtain ⟨name, n⟩ := w
    obtain ⟨hunderway, hbegun⟩ := h
    rw [hwork] at hunderway hbegun
    have hnext : ∀ w ∈ (name, n + 1) :: rest, w.2 ≠ 0 :=
      List.forall_mem_cons.2 ⟨Nat.succ_ne_zero n, hbegun⟩
    simp only [CycleSearch.step, hwork]
    cases htarget : (successors edges name)[n]? with
    | some target =>
      dsimp only
      unfold follow
      dsimp only
      split
      · next hmet =>
        split
        · next hmem =>
          exact ⟨(hunderway.back htarget hmem).congr rfl (fun _ => rfl) rfl rfl, hbegun⟩
        · next hmem =>
          exact ⟨(hunderway.pass htarget hmet hmem).congr rfl (fun _ => rfl) rfl rfl, hbegun⟩
      · next hmet =>
        have hdescend := hunderway.descend htarget (Bool.not_eq_true _ ▸ hmet)
        exact ⟨hdescend.congr rfl (fun _ => rfl) rfl rfl, hnext⟩
    | none =>
      dsimp only
      have hleave := hunderway.leave (List.getElem?_eq_none_iff.1 htarget)
      have hall : ∀ w ∈ (s.entered.leave edges name rest).work, w.2 ≠ 0 := by
        rw [work_leave]
        exact hbegun
      refine ⟨?_, fun w hw => hall w (List.mem_of_mem_tail hw)⟩
      rw [entered_of_begun hall, work_leave]
      exact hleave

/-- The search comes to an end, and what holds then. -/
theorem Ready.finish (h : Ready edges s) :
    (finish edges s).work = [] ∧ Underway edges (finish edges s) [] := by
  fun_induction CycleSearch.finish edges s with
  | case1 s hwork =>
    refine ⟨hwork, ?_⟩
    have hunderway := h.underway
    rwa [entered_of_begun (by simp [hwork]), hwork] at hunderway
  | case2 s _ ih => exact ih h.step

theorem hasMet_finish (h : s.entered.hasMet v = true) : (finish edges s).hasMet v = true := by
  fun_induction CycleSearch.finish edges s with
  | case1 s hwork => rwa [entered_of_begun (by simp [hwork])] at h
  | case2 s _ ih => exact ih (hasMet_step edges h)

/-- A search that is over: nothing is left on the stack. -/
structure Over (edges : List (String × List String)) (s : CycleSearch) : Prop where
  consistent : Consistent edges s
  stack_eq : s.stack = []

theorem Over.searchFrom (h : Over edges s) (name : String) :
    Over edges (s.searchFrom edges name) ∧ (s.searchFrom edges name).hasMet name = true ∧
      ∀ v, s.hasMet v = true → (s.searchFrom edges name).hasMet v = true := by
  unfold CycleSearch.searchFrom
  split
  · next hmet => exact ⟨h, hmet, fun _ hv => hv⟩
  · next hmet =>
    have hnew : s.hasMet name = false := Bool.not_eq_true _ ▸ hmet
    have hframes : Frames edges (s.enter name) [] s.stack := by
      rw [h.stack_eq]
      exact .nil
    have hready : Ready edges { s with work := [(name, 0)] } :=
      ⟨(Underway.enter h.consistent hnew hframes (by simp)).congr rfl (fun _ => rfl) rfl rfl,
        by simp⟩
    obtain ⟨-, hconsistent, hstack⟩ := hready.finish
    refine ⟨⟨hconsistent, ?_⟩, hasMet_finish ?_, fun v hv => hasMet_finish ?_⟩
    · generalize (finish edges { s with work := [(name, 0)] }).stack = stack at hstack
      cases hstack
      rfl
    · exact (hasMet_enter _ _ _).trans (by simp)
    · exact (hasMet_enter _ _ _).trans (Bool.or_eq_true_iff.2 (.inr hv))

theorem Over.foldl (h : Over edges s) (names : List String) :
    Over edges (names.foldl (CycleSearch.searchFrom edges) s) ∧ ∀ v, s.hasMet v = true ∨ v ∈ names →
      (names.foldl (CycleSearch.searchFrom edges) s).hasMet v = true := by
  induction names generalizing s with
  | nil => exact ⟨h, fun v hv => hv.resolve_right (by simp)⟩
  | cons name names ih =>
    obtain ⟨hnext, hname, hkept⟩ := h.searchFrom name
    obtain ⟨hlast, hall⟩ := ih hnext
    refine ⟨hlast, fun v hv => hall v ?_⟩
    rcases hv with hv | hv
    · exact .inl (hkept v hv)
    · rcases List.mem_cons.1 hv with rfl | hv
      · exact .inl hname
      · exact .inr hv

end CycleSearch

/-! ## The components of a graph -/

theorem mem_keys_of_edge (h : Edge edges a b) : a ∈ edges.map Prod.fst := by
  unfold Edge successors at h
  cases hlookup : edges.lookup a with
  | none => simp [hlookup] at h
  | some targets => exact List.mem_map_of_mem (mem_of_lookup hlookup)

/-- A whole search is over, and has met every name with an edge. -/
theorem over_cycles (edges : List (String × List String)) :
    ∃ s, CycleSearch.Over edges s ∧ cycles edges = s.components ∧
      ∀ v, TransGen (Edge edges) v v → s.Settled v := by
  have hinit : CycleSearch.Over edges {} := ⟨CycleSearch.consistent_init, rfl⟩
  obtain ⟨hover, hmet⟩ := hinit.foldl (edges.map Prod.fst)
  refine ⟨_, hover, rfl, fun v hcycle => ⟨hmet v (.inr ?_), by simp [hover.stack_eq]⟩⟩
  obtain ⟨w, hedge, -⟩ := Relation.TransGen.head'_iff.1 hcycle
  exact mem_keys_of_edge hedge

theorem isSome_lookup_cycles {v : String} :
    ((cycles edges).lookup v).isSome = true ↔ TransGen (Edge edges) v v := by
  obtain ⟨s, hover, heq, hsettled⟩ := over_cycles edges
  rw [heq, hover.consistent.cyclic]
  exact ⟨And.right, fun hcycle => ⟨hsettled v hcycle, hcycle⟩⟩

theorem lookup_cycles_eq_iff :
    (∃ k, (cycles edges).lookup a = some k ∧ (cycles edges).lookup b = some k) ↔
      TransGen (Edge edges) a b ∧ TransGen (Edge edges) b a := by
  constructor
  · rintro ⟨k, ha, hb⟩
    have hcycle : TransGen (Edge edges) a a :=
      isSome_lookup_cycles.1 (by rw [ha, Option.isSome_some])
    obtain ⟨s, hover, heq, -⟩ := over_cycles edges
    rw [heq] at ha hb
    -- the number of a component is the number of one of its names
    obtain ⟨r, hr, hrk, har⟩ := hover.consistent.root a k ha
    obtain ⟨r', hr', hrk', hbr'⟩ := hover.consistent.root b k hb
    obtain rfl := hover.consistent.number_inj r r' hr.1 hr'.1 (hrk.trans hrk'.symm)
    have hlinked := har.trans hbr'.symm
    exact ⟨hcycle.trans_left hlinked.1, hcycle.trans_right hlinked.2⟩
  · rintro ⟨hab, hba⟩
    obtain ⟨k, hk⟩ := Option.isSome_iff_exists.1 (isSome_lookup_cycles.2 (hab.trans hba))
    obtain ⟨s, hover, heq, hsettled⟩ := over_cycles edges
    have hsame := hover.consistent.same a b (hsettled a (hab.trans hba))
      ⟨hab.to_reflTransGen, hba.to_reflTransGen⟩
    rw [← heq] at hsame
    exact ⟨k, hk, hsame ▸ hk⟩

end Typegen.Schema
