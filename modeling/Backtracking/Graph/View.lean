import Backtracking.Graph.Basic

/-!
# What the graph operations do to the view

**Results.**
* `owns_…`, `transitionsFrom_…` and `row_…` describe the graph after `single`, `addState` and
  `merge`; `offer_of_owned`, `offer_of_foreign`, `addTransition_eq_ok`,
  `addTransition_eq_error_iff` and `exists_addTransition_iff` describe adding a transition.
* `ext_view`: graphs with the same start, states and stored transitions are equal.
* `filed_single`, `Filed.addState`, `Filed.offer`, `Filed.addTransition`, `Filed.merge`: every
  operation files transitions under their sources.
* `Filed.mem_transitions`: in such a graph a transition is listed exactly when its edge is in
  the row of its source.
-/

namespace Backtracking
namespace Graph

open Std

/-- The comparison of two states finds them equal exactly when they are. -/
theorem compare_beq_eq (s t : StateId) : (compare s t == .eq) = (t == s) := by
  rw [Bool.eq_iff_iff, beq_iff_eq, beq_iff_eq, Nat.compare_eq_eq]
  exact eq_comm

@[simp] theorem start_single (s : StateId) : (single s).start = s := rfl

@[simp] theorem owns_single (s t : StateId) : (single s).owns t = (t == s) := by
  simp [owns, single, ExtTreeMap.contains_insert, compare_beq_eq]

@[simp] theorem transitionsFrom_single (s t : StateId) : (single s).transitionsFrom t = [] := by
  simp only [transitionsFrom, single, ExtTreeMap.getElem?_insert]
  split <;> simp

@[simp] theorem row_single (s t : StateId) : (single s).row t = [] := by
  rw [row, transitionsFrom_single, List.map_nil]

@[simp] theorem start_addState (g : Graph) (s : StateId) : (g.addState s).start = g.start := rfl

@[simp] theorem owns_addState (g : Graph) (s t : StateId) :
    (g.addState s).owns t = (t == s || g.owns t) := by
  simp [owns, addState, ExtTreeMap.contains_insertIfNew, compare_beq_eq]

@[simp] theorem transitionsFrom_addState (g : Graph) (s t : StateId) :
    (g.addState s).transitionsFrom t = g.transitionsFrom t := by
  simp only [transitionsFrom, addState, ExtTreeMap.getElem?_insertIfNew, Nat.compare_eq_eq]
  split
  next h => simp [← h.1, ExtTreeMap.getElem?_eq_none h.2]
  next => rfl

@[simp] theorem row_addState (g : Graph) (s t : StateId) : (g.addState s).row t = g.row t := by
  rw [row, transitionsFrom_addState, row]

theorem getElem?_appendRow
    (rows : ExtTreeMap StateId (List Transition)) (s : StateId) (more : List Transition)
    (t : StateId) :
    (appendRow rows s more)[t]? =
      if s = t then some (rows[s]?.getD [] ++ more) else rows[t]? := by
  simp [appendRow, ExtTreeMap.getElem?_insert]

theorem contains_appendRow
    (rows : ExtTreeMap StateId (List Transition)) (s : StateId) (more : List Transition)
    (t : StateId) :
    (appendRow rows s more).contains t = (t == s || rows.contains t) := by
  simp [appendRow, ExtTreeMap.contains_insert, compare_beq_eq]

/-- A transition with a foreign end is refused, and the graph is the same as before. -/
theorem offer_of_foreign
    {g : Graph} {t : Transition} (foreign : ¬ (g.owns t.source = true ∧ g.owns t.target = true)) :
    g.offer t = (.error ⟨t⟩, g) := by
  rw [offer, if_neg]
  rwa [Bool.and_eq_true, and_comm]

/-- A transition between owned states is put last at its source; nothing else changes. -/
theorem offer_of_owned
    {g : Graph} {t : Transition} (source : g.owns t.source = true)
    (target : g.owns t.target = true) :
    ∃ h : Graph, g.offer t = (.ok (), h) ∧ h.start = g.start ∧ (∀ s, h.owns s = g.owns s) ∧
      ∀ s, h.transitionsFrom s =
        if t.source = s then g.transitionsFrom s ++ [t] else g.transitionsFrom s := by
  have both : (g.owns t.target && g.owns t.source) = true := by rw [source, target, Bool.and_true]
  refine ⟨{ g with rows := appendRow g.rows t.source [t] }, by rw [offer, if_pos both], rfl,
    fun s => ?_, fun s => ?_⟩
  · simp only [owns, contains_appendRow] at source ⊢
    by_cases hs : s = t.source
    · simp [hs, source]
    · simp [hs]
  · simp only [transitionsFrom, getElem?_appendRow]
    split
    next hs => simp [hs]
    next => rfl

/-- A transition is refused exactly when an end is foreign. -/
theorem addTransition_eq_error_iff (g : Graph) (t : Transition) (e : InvalidEdge) :
    g.addTransition t = .error e ↔
      (g.owns t.source = false ∨ g.owns t.target = false) ∧ e = ⟨t⟩ := by
  by_cases both : g.owns t.source = true ∧ g.owns t.target = true
  · obtain ⟨h, hoffer, -⟩ := offer_of_owned both.1 both.2
    simp [addTransition, hoffer, both]
  · rw [addTransition, offer_of_foreign both, Except.error.injEq, @eq_comm _ _ e]
    have foreign := Decidable.not_and_iff_or_not.mp both
    rw [Bool.not_eq_true, Bool.not_eq_true] at foreign
    exact (and_iff_right foreign).symm

/-- It is added exactly when both ends are owned. -/
theorem exists_addTransition_iff {g : Graph} {t : Transition} :
    (∃ h, g.addTransition t = .ok h) ↔ g.owns t.source = true ∧ g.owns t.target = true := by
  by_cases both : g.owns t.source = true ∧ g.owns t.target = true
  · obtain ⟨h, hoffer, -⟩ := offer_of_owned both.1 both.2
    exact iff_of_true ⟨h, by rw [addTransition, hoffer]⟩ both
  · refine iff_of_false ?_ both
    intro ⟨h, ok⟩
    rw [addTransition, offer_of_foreign both] at ok
    cases ok

/-- A transition between owned states comes last at its source; nothing else changes. -/
theorem addTransition_eq_ok
    {g h : Graph} {t : Transition} (ok : g.addTransition t = .ok h) :
    h.start = g.start ∧ (∀ s, h.owns s = g.owns s) ∧
      ∀ s, h.transitionsFrom s =
        if t.source = s then g.transitionsFrom s ++ [t] else g.transitionsFrom s := by
  obtain ⟨source, target⟩ := exists_addTransition_iff.mp ⟨h, ok⟩
  obtain ⟨h', hoffer, laws⟩ := offer_of_owned source target
  rw [addTransition, hoffer] at ok
  obtain rfl := Except.ok.inj ok
  exact laws

/-- What that does to the rows. -/
theorem row_of_addTransition
    {g h : Graph} {t : Transition} (ok : g.addTransition t = .ok h) (s : StateId) :
    h.row s = if t.source = s then g.row s ++ [⟨t.label, t.target⟩] else g.row s := by
  rw [row, (addTransition_eq_ok ok).2.2 s]
  split
  next => exact List.map_append
  next => rfl

/-- Appending rows one after another, with every state named once. -/
theorem getElem?_foldl_appendRow
    (entries : List (StateId × List Transition)) (rows : ExtTreeMap StateId (List Transition))
    (s : StateId)
    (distinct : entries.Pairwise fun a b => a.1 ≠ b.1) :
    (entries.foldl (fun rows r => appendRow rows r.1 r.2) rows)[s]? =
      match entries.find? (·.1 == s) with
      | some r => some (rows[s]?.getD [] ++ r.2)
      | none => rows[s]? := by
  induction entries generalizing rows with
  | nil => rfl
  | cons r rest ih =>
    obtain ⟨head, tail⟩ := List.pairwise_cons.mp distinct
    rw [List.foldl_cons, ih _ tail, List.find?_cons]
    by_cases hs : r.1 = s
    · have absent : rest.find? (·.1 == s) = none := by
        rw [List.find?_eq_none]
        intro q hq
        simpa [← hs] using Ne.symm (head q hq)
      simp [hs, absent, getElem?_appendRow]
    · simp [getElem?_appendRow, hs, beq_eq_false_iff_ne.mpr hs]

/-- What `find?` sees in the listing of a map is what the map holds. -/
theorem find?_toList (rows : ExtTreeMap StateId (List Transition)) (s : StateId) :
    rows.toList.find? (·.1 == s) = rows[s]?.map (s, ·) := by
  cases h : rows.toList.find? (·.1 == s) with
  | none =>
    rw [List.find?_eq_none] at h
    cases hs : rows[s]? with
    | none => rfl
    | some stored =>
      have listed : (s, stored) ∈ rows.toList :=
        ExtTreeMap.mem_toList_iff_getElem?_eq_some.mpr hs
      exact absurd (beq_self_eq_true s) (h _ listed)
  | some r =>
    have found := List.mem_of_find?_eq_some h
    have key : r.1 = s := by simpa using List.find?_some h
    have held : rows[r.1]? = some r.2 := ExtTreeMap.mem_toList_iff_getElem?_eq_some.mp found
    rw [← key, held, Option.map_some]

theorem getElem?_merge (g h : Graph) (s : StateId) :
    (g.merge h).rows[s]? =
      match h.rows[s]? with
      | some stored => some (g.transitionsFrom s ++ stored)
      | none => g.rows[s]? := by
  have distinct : h.rows.toList.Pairwise fun a b => a.1 ≠ b.1 :=
    ExtTreeMap.distinct_keys_toList.imp fun d e => d (Nat.compare_eq_eq.mpr e)
  rw [merge, getElem?_foldl_appendRow _ _ _ distinct, find?_toList]
  cases h.rows[s]? <;> rfl

/-- The merged graph owns what either graph owns. -/
@[simp] theorem owns_merge (g h : Graph) (s : StateId) :
    (g.merge h).owns s = (g.owns s || h.owns s) := by
  simp only [owns, ExtTreeMap.contains_eq_isSome_getElem?, getElem?_merge]
  cases h.rows[s]? <;> simp

/-- At every state the transitions of the second graph follow those of the first. -/
@[simp] theorem transitionsFrom_merge (g h : Graph) (s : StateId) :
    (g.merge h).transitionsFrom s = g.transitionsFrom s ++ h.transitionsFrom s := by
  simp only [transitionsFrom, getElem?_merge]
  cases h.rows[s]? <;> simp

@[simp] theorem row_merge (g h : Graph) (s : StateId) :
    (g.merge h).row s = g.row s ++ h.row s := by
  rw [row, transitionsFrom_merge, List.map_append, row, row]

/-- Graphs with the same start, the same states and the same transitions at every state are
equal. -/
theorem ext_view
    {g h : Graph} (start : g.start = h.start) (owns : ∀ s, g.owns s = h.owns s)
    (transitionsFrom : ∀ s, g.transitionsFrom s = h.transitionsFrom s) : g = h := by
  obtain ⟨a, rows⟩ := g
  obtain ⟨b, rows'⟩ := h
  obtain rfl : a = b := start
  congr 1
  refine ExtTreeMap.ext_getElem? fun s => ?_
  have hs := owns s
  have hr := transitionsFrom s
  simp only [Graph.owns, Graph.transitionsFrom, ExtTreeMap.contains_eq_isSome_getElem?] at hs hr
  cases h₁ : rows[s]? <;> cases h₂ : rows'[s]? <;> simp_all

/-- The listed states are the owned ones. -/
@[simp] theorem mem_states (g : Graph) (s : StateId) : s ∈ g.states ↔ g.owns s = true := by
  rw [states, ExtTreeMap.mem_keys, owns, ExtTreeMap.contains_iff_mem]

/-- They are listed in ascending order. -/
theorem pairwise_states (g : Graph) : g.states.Pairwise (· < ·) :=
  ExtTreeMap.ordered_keys.imp fun h => Nat.compare_eq_lt.mp h

theorem transitionsFrom_eq_nil {g : Graph} {s : StateId} (foreign : g.owns s = false) :
    g.transitionsFrom s = [] := by
  rw [owns, ExtTreeMap.contains_eq_isSome_getElem?, Option.isSome_eq_false_iff] at foreign
  rw [transitionsFrom, Option.isNone_iff_eq_none.mp foreign, Option.getD_none]

theorem row_eq_nil {g : Graph} {s : StateId} (foreign : g.owns s = false) : g.row s = [] := by
  rw [row, transitionsFrom_eq_nil foreign, List.map_nil]

@[simp] theorem length_row (g : Graph) (s : StateId) :
    (g.row s).length = (g.transitionsFrom s).length :=
  List.length_map _

/-- A row somewhere in the graph has an edge exactly when a transition of the graph says so,
wherever it is stored. -/
theorem exists_mem_transitions_iff (g : Graph) (P : Edge → Prop) :
    (∃ t ∈ g.transitions, P t.edge) ↔ ∃ s, ∃ e ∈ g.row s, P e := by
  simp only [transitions, row, List.mem_flatMap, List.mem_map, mem_states]
  constructor
  · rintro ⟨t, ⟨s, -, ht⟩, hP⟩
    exact ⟨s, t.edge, ⟨t, ht, rfl⟩, hP⟩
  · rintro ⟨s, e, ⟨t, ht, rfl⟩, hP⟩
    refine ⟨t, ⟨s, ?_, ht⟩, hP⟩
    cases h : g.owns s with
    | true => rfl
    | false => simp [transitionsFrom_eq_nil h] at ht

/-- Every transition is stored at the state that it leaves. -/
def Filed (g : Graph) : Prop :=
  ∀ s, ∀ t ∈ g.transitionsFrom s, t.source = s

theorem filed_single (s : StateId) : (single s).Filed := by
  intro r t ht
  rw [transitionsFrom_single] at ht
  cases ht

namespace Filed

variable {g h : Graph} {t : Transition}

theorem addState (hg : g.Filed) (s : StateId) : (g.addState s).Filed := by
  intro r t ht
  rw [transitionsFrom_addState] at ht
  exact hg r t ht

theorem addTransition (hg : g.Filed) (ok : g.addTransition t = .ok h) : h.Filed := by
  intro s u hu
  rw [(addTransition_eq_ok ok).2.2 s] at hu
  split at hu
  next hs =>
    obtain hu | hu := List.mem_append.mp hu
    · exact hg s u hu
    · rwa [List.mem_singleton.mp hu]
  next => exact hg s u hu

/-- Whether the transition is taken or not. -/
theorem offer (hg : g.Filed) (t : Transition) : (g.offer t).2.Filed := by
  by_cases both : g.owns t.source = true ∧ g.owns t.target = true
  · obtain ⟨h, hoffer, -⟩ := offer_of_owned both.1 both.2
    rw [hoffer]
    exact hg.addTransition (by rw [Graph.addTransition, hoffer])
  · rwa [offer_of_foreign both]

theorem merge (hg : g.Filed) (hh : h.Filed) : (g.merge h).Filed := by
  intro s t ht
  rw [transitionsFrom_merge] at ht
  exact (List.mem_append.mp ht).elim (hg s t) (hh s t)

/-- The row says everything about the transitions that are stored with it. -/
theorem transitionsFrom_eq (hg : g.Filed) (s : StateId) :
    g.transitionsFrom s = (g.row s).map (Edge.leaving s) := by
  rw [row, List.map_map]
  refine (List.map_id _).symm.trans (List.map_congr_left fun t ht => ?_)
  obtain rfl := hg s t ht
  rfl

theorem mem_transitionsFrom (hg : g.Filed) (s : StateId) (t : Transition) :
    t ∈ g.transitionsFrom s ↔ t.source = s ∧ ⟨t.label, t.target⟩ ∈ g.row s := by
  rw [hg.transitionsFrom_eq, List.mem_map]
  constructor
  · rintro ⟨e, he, rfl⟩
    exact ⟨rfl, he⟩
  · rintro ⟨rfl, he⟩
    exact ⟨_, he, rfl⟩

/-- A transition is listed under its own source and nowhere else. -/
theorem mem_transitions (hg : g.Filed) (t : Transition) :
    t ∈ g.transitions ↔ ⟨t.label, t.target⟩ ∈ g.row t.source := by
  simp only [transitions, List.mem_flatMap, mem_states, hg.mem_transitionsFrom]
  constructor
  · rintro ⟨s, -, rfl, he⟩
    exact he
  · intro he
    refine ⟨t.source, ?_, rfl, he⟩
    cases h : g.owns t.source with
    | true => rfl
    | false => simp [row_eq_nil h] at he

end Filed
end Graph
end Backtracking
