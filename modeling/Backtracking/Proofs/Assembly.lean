import Backtracking.Proofs.Size
import Mathlib.Logic.Function.Basic

/-!
# Assembling graphs

Graphs are made and changed by four operations, in any order and on any number of graphs at once.
State numbers are arbitrary: graphs that are merged may share states, and a graph may be merged
with a copy of itself.

**Invariant.**  A graph is asked for both ends only when a transition is added, and the transition
is put at its source by that operation alone.  Transitions are filed under their sources and lead to
owned states all the same (`Graph.Sound`): no operation disowns a state, and merging takes over the
states of a graph with what is stored there.

**Results.**
* `Graphs.sound_perform`, `Graphs.sound_run`: what one operation keeps, every sequence keeps.
* `Graph.exists_gains_of_owned`, `Graph.unites_merge`: what adding a transition and merging do.
* `Graphs.lawful_run`: the laws that hold after any sequence of operations.
-/

namespace Backtracking

namespace Graph

variable {g h : Graph} {t : Transition}

/-- Transitions are stored at the states that they leave, and they lead to owned states. -/
structure Sound (g : Graph) : Prop where
  filed : g.Filed
  owns_target : ∀ s, ∀ t ∈ g.transitionsFrom s, g.owns t.target = true

/-- The second graph is the first one with a transition more, behind the others at its
source. -/
structure Gains (g : Graph) (t : Transition) (g' : Graph) : Prop where
  start_eq : g'.start = g.start
  owns_eq : ∀ s, g'.owns s = g.owns s
  transitionsFrom_eq : ∀ s, g'.transitionsFrom s =
    if t.source = s then g.transitionsFrom s ++ [t] else g.transitionsFrom s
  length_eq : g'.transitions.length = g.transitions.length + 1

/-- The third graph holds the first two, with the start of the first one and its transitions in
front. -/
structure Unites (g h gh : Graph) : Prop where
  start_eq : gh.start = g.start
  owns_iff : ∀ s, gh.owns s = true ↔ g.owns s = true ∨ h.owns s = true
  transitionsFrom_eq : ∀ s, gh.transitionsFrom s = g.transitionsFrom s ++ h.transitionsFrom s
  length_eq : gh.transitions.length = g.transitions.length + h.transitions.length

theorem sound_single (s : StateId) : (single s).Sound where
  filed := filed_single s
  owns_target r u hu := by
    rw [transitionsFrom_single] at hu
    cases hu

theorem Sound.addState (hg : g.Sound) (s : StateId) : (g.addState s).Sound where
  filed := hg.filed.addState s
  owns_target r u hu := by
    rw [transitionsFrom_addState] at hu
    rw [owns_addState, hg.owns_target r u hu, Bool.or_true]

/-- Whether the transition is taken or not. -/
theorem Sound.offer (hg : g.Sound) (t : Transition) : (g.offer t).2.Sound where
  filed := hg.filed.offer t
  owns_target s u hu := by
    by_cases both : g.owns t.source = true ∧ g.owns t.target = true
    · obtain ⟨g', hoffer, -, howns, hfrom⟩ := offer_of_owned both.1 both.2
      rw [hoffer] at hu ⊢
      rw [howns]
      rw [hfrom] at hu
      split at hu
      · obtain hu | hu := List.mem_append.mp hu
        · exact hg.owns_target s u hu
        · exact List.mem_singleton.mp hu ▸ both.2
      · exact hg.owns_target s u hu
    · rw [offer_of_foreign both] at hu ⊢
      exact hg.owns_target s u hu

theorem Sound.merge (hg : g.Sound) (hh : h.Sound) : (g.merge h).Sound where
  filed := hg.filed.merge hh.filed
  owns_target s u hu := by
    rw [transitionsFrom_merge] at hu
    rw [owns_merge, Bool.or_eq_true]
    exact (List.mem_append.mp hu).imp (hg.owns_target s u) (hh.owns_target s u)

/-- Where a transition is stored, its source is owned. -/
theorem Sound.owns_source (hg : g.Sound) {s : StateId} (ht : t ∈ g.transitionsFrom s) :
    g.owns t.source = true := by
  rw [hg.filed s t ht]
  by_contra hforeign
  rw [transitionsFrom_eq_nil (Bool.eq_false_iff.mpr hforeign)] at ht
  cases ht

/-- A transition between owned states is added. -/
theorem exists_gains_of_owned (hs : g.owns t.source = true) (ht : g.owns t.target = true) :
    ∃ g', g.offer t = (.ok (), g') ∧ g.Gains t g' := by
  obtain ⟨g', hoffer, hstart, howns, hfrom⟩ := offer_of_owned hs ht
  refine ⟨g', hoffer, hstart, howns, hfrom, ?_⟩
  have hmem : ∀ s, g.owns s = true → s ∈ g.states.toFinset :=
    fun s hs => List.mem_toFinset.mpr ((mem_states g s).mpr hs)
  have hlength : ∀ s, (g'.transitionsFrom s).length =
      (g.transitionsFrom s).length + if t.source = s then 1 else 0 := by
    intro s
    rw [hfrom]
    split <;> simp
  rw [length_transitions_eq_sum fun s hs => hmem s (howns s ▸ hs),
    length_transitions_eq_sum hmem]
  simp only [hlength, length_row, Finset.sum_add_distrib, Finset.sum_ite_eq, hmem _ hs, if_true]

theorem unites_merge (g h : Graph) : g.Unites h (g.merge h) := by
  refine ⟨rfl, fun s => ?_, transitionsFrom_merge g h, ?_⟩
  · rw [owns_merge, Bool.or_eq_true]
  · let A := (g.states ++ h.states).toFinset
    have hg : ∀ s, g.owns s = true → s ∈ A := fun s hs =>
      List.mem_toFinset.mpr (List.mem_append_left _ ((mem_states g s).mpr hs))
    have hh : ∀ s, h.owns s = true → s ∈ A := fun s hs =>
      List.mem_toFinset.mpr (List.mem_append_right _ ((mem_states h s).mpr hs))
    have hgh : ∀ s, (g.merge h).owns s = true → s ∈ A := by
      intro s hs
      rw [owns_merge, Bool.or_eq_true] at hs
      exact hs.elim (hg s) (hh s)
    rw [length_transitions_eq_sum hgh, length_transitions_eq_sum hg, length_transitions_eq_sum hh,
      ← Finset.sum_add_distrib]
    simp only [row_merge, List.length_append]

/-- It does not matter which of two merges is made first. -/
theorem merge_assoc (g h k : Graph) : (g.merge h).merge k = g.merge (h.merge k) := by
  refine ext_view rfl (fun s => ?_) fun s => ?_
  · rw [owns_merge, owns_merge, owns_merge, owns_merge, Bool.or_assoc]
  · rw [transitionsFrom_merge, transitionsFrom_merge, transitionsFrom_merge,
      transitionsFrom_merge, List.append_assoc]

end Graph

/-- An operation on graphs that are known by names. -/
inductive GraphCall (Name : Type)
  /-- Makes a graph of one state; a name that is taken is given away. -/
  | make (name : Name) (start : StateId)
  | addState (name : Name) (s : StateId)
  | addTransition (name : Name) (t : Transition)
  /-- Merges a copy of one graph into another or into itself. -/
  | merge (name other : Name)

/-- The graphs that there are. -/
abbrev Graphs (Name : Type) := Name → Option Graph

namespace Graphs

variable {Name : Type} [DecidableEq Name]

/-- Carries out an operation: whether it was refused, and the graphs afterwards.  Where there is no
graph of a name, nothing is done. -/
def perform (graphs : Graphs Name) : GraphCall Name → Except InvalidEdge Unit × Graphs Name
  | .make name start => (.ok (), Function.update graphs name (some (.single start)))
  | .addState name s =>
      match graphs name with
      | some g => (.ok (), Function.update graphs name (some (g.addState s)))
      | none => (.ok (), graphs)
  | .addTransition name t =>
      match graphs name with
      | some g => ((g.offer t).1, Function.update graphs name (some (g.offer t).2))
      | none => (.ok (), graphs)
  | .merge name other =>
      match graphs name, graphs other with
      | some g, some h => (.ok (), Function.update graphs name (some (g.merge h)))
      | _, _ => (.ok (), graphs)

/-- The graphs after some operations, one after another, where there were none before. -/
def run (calls : List (GraphCall Name)) : Graphs Name :=
  calls.foldl (fun graphs call => (graphs.perform call).2) fun _ => none

/-- All graphs file their transitions, which lead to owned states. -/
def Sound (graphs : Graphs Name) : Prop :=
  ∀ name, ∀ g ∈ graphs name, g.Sound

/-- What holds of graphs, and what the operations do to them. -/
structure Lawful (graphs : Graphs Name) : Prop where
  /-- A transition is stored at the state that it leaves, and both its ends are owned. -/
  inside : ∀ {name g}, graphs name = some g → ∀ s, ∀ t ∈ g.transitionsFrom s,
    t.source = s ∧ g.owns t.source = true ∧ g.owns t.target = true
  /-- A transition between owned states is added. -/
  added : ∀ {name g} {t : Transition}, graphs name = some g →
    g.owns t.source = true ∧ g.owns t.target = true →
      ∃ g', graphs.perform (.addTransition name t) =
        (.ok (), Function.update graphs name (some g')) ∧ g.Gains t g'
  /-- Any other one is refused, and nothing changes. -/
  refused : ∀ {name g} {t : Transition}, graphs name = some g →
    ¬ (g.owns t.source = true ∧ g.owns t.target = true) →
      graphs.perform (.addTransition name t) = (.error ⟨t⟩, graphs)
  /-- Merging unites two graphs. -/
  merged : ∀ {name other g h}, graphs name = some g → graphs other = some h →
    graphs.perform (.merge name other) =
      (.ok (), Function.update graphs name (some (g.merge h))) ∧ g.Unites h (g.merge h)

theorem Sound.update {graphs : Graphs Name} (h : graphs.Sound) (name : Name) {g : Graph}
    (hg : g.Sound) : Sound (Function.update graphs name (some g)) := by
  intro name' g' hmem
  by_cases heq : name' = name
  · subst heq
    rw [Function.update_self] at hmem
    exact Option.some.inj hmem ▸ hg
  · rw [Function.update_of_ne heq] at hmem
    exact h name' g' hmem

/-- No operation stores a transition elsewhere or makes one lead outside. -/
theorem sound_perform {graphs : Graphs Name} (h : graphs.Sound) (call : GraphCall Name) :
    (graphs.perform call).2.Sound := by
  cases call with
  | make name start =>
      exact h.update name (Graph.sound_single start)
  | addState name s =>
      rw [perform]
      cases hg : graphs name with
      | none => exact h
      | some g => exact h.update name ((h name g hg).addState s)
  | addTransition name t =>
      rw [perform]
      cases hg : graphs name with
      | none => exact h
      | some g => exact h.update name ((h name g hg).offer t)
  | merge name other =>
      rw [perform]
      cases hg : graphs name with
      | none => exact h
      | some g =>
          cases hk : graphs other with
          | none => exact h
          | some k => exact h.update name ((h name g hg).merge (h other k hk))

/-- No sequence of operations does. -/
theorem sound_run (calls : List (GraphCall Name)) : (run calls).Sound := by
  induction calls using List.reverseRecOn with
  | nil =>
      intro name g hg
      cases hg
  | append_singleton calls call ih =>
      rw [run, List.foldl_concat]
      exact sound_perform ih call

/-- Graphs that are in order obey the laws. -/
theorem Sound.lawful {graphs : Graphs Name} (h : graphs.Sound) : graphs.Lawful where
  inside {name g} hg s t ht := by
    have hsound := h name g hg
    exact ⟨hsound.filed s t ht, hsound.owns_source ht, hsound.owns_target s t ht⟩
  added {name g t} hg howned := by
    obtain ⟨g', hoffer, hgains⟩ := Graph.exists_gains_of_owned howned.1 howned.2
    refine ⟨g', ?_, hgains⟩
    simp only [perform, hg, hoffer]
  refused {name g t} hg hforeign := by
    simp only [perform, hg, Graph.offer_of_foreign hforeign]
    -- the graph that comes back is the one that was there
    rw [← hg, Function.update_eq_self]
  merged {name other g k} hg hk := by
    refine ⟨?_, g.unites_merge k⟩
    rw [perform, hg, hk]

/-- The laws of graphs after any sequence of operations, and merging is associative. -/
theorem lawful_run (calls : List (GraphCall Name)) :
    (run calls).Lawful ∧ ∀ g h k : Graph, (g.merge h).merge k = g.merge (h.merge k) :=
  ⟨(sound_run calls).lawful, Graph.merge_assoc⟩

/-- A graph that is merged with a copy of itself has every transition twice. -/
example : (run [.make 0 5, .addTransition 0 ⟨5, .epsilon, 5⟩, .merge 0 0] 0).map
    (fun g => g.transitionsFrom 5) = some [⟨5, .epsilon, 5⟩, ⟨5, .epsilon, 5⟩] := by
  rfl

end Graphs
end Backtracking
