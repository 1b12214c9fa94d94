import Backtracking.Proofs.Course
import Backtracking.Search.Run

/-!
# A search follows every trail once

A trail is an offset and the transitions of a course from the start at this offset.  In
a pruned search the live paths of a round are the simple trails with as many edges as
there were rounds, each of them once and in the order of the edges taken.

**Loops.**  Offsets never fall along a path, so the newest configurations are enough to
see whether the last one has been there before (`Path.revisits_iff`).

**Results.**
* `Nfa.mem_trails_iff`, `Nfa.nodup_trails`: the trails of a round.
* `Nfa.trails_eq_nil`: simple trails are shorter than the number of configurations.
-/

namespace Backtracking

namespace Path

theorem revisits_iff
    {c : Configuration} {past : List Configuration}
    (h : (c :: past).Pairwise fun a b => b.offset ≤ a.offset) :
    revisits c past = true ↔ c ∈ past := by
  induction past with
  | nil =>
      simp [revisits]
  | cons d past ih =>
      obtain ⟨hc, hd⟩ := List.pairwise_cons.mp h
      obtain ⟨hd', hpast⟩ := List.pairwise_cons.mp hd
      have ih := ih (List.pairwise_cons.mpr
        ⟨fun e he => hc e (List.mem_cons_of_mem d he), hpast⟩)
      simp only [revisits, Bool.and_eq_true, Bool.or_eq_true, beq_iff_eq, ih, List.mem_cons]
      constructor
      · rintro ⟨hoff, hstate | hmem⟩
        · left
          cases c
          cases d
          simp_all
        · exact Or.inr hmem
      · rintro (rfl | hmem)
        · exact ⟨rfl, Or.inl rfl⟩
        · -- what lies between is at the same offset
          have hle := hc d List.mem_cons_self
          have hge := hd' c hmem
          exact ⟨by omega, Or.inr hmem⟩

/-- The path with some more transitions. -/
def along (p : Path) (ts : List Transition) : Path :=
  ts.foldl (fun p t => p.extend (p.here.after t)) p

theorem along_concat (p : Path) (ts : List Transition) (t : Transition) :
    p.along (ts ++ [t]) = (p.along ts).extend ((p.along ts).here.after t) := by
  rw [along, List.foldl_append]
  rfl

theorem here_along (p : Path) (ts : List Transition) : (p.along ts).here = p.here.along ts := by
  induction ts generalizing p with
  | nil =>
      rfl
  | cons t ts ih =>
      exact ih _

theorem origin_along (p : Path) (ts : List Transition) : (p.along ts).origin = p.origin := by
  induction ts generalizing p with
  | nil =>
      rfl
  | cons t ts ih =>
      exact ih _

theorem history_along (p : Path) (ts : List Transition) :
    (p.along ts).history = p.history ++ p.here.visits ts := by
  induction ts generalizing p with
  | nil =>
      exact (List.append_nil _).symm
  | cons t ts ih =>
      refine (ih _).trans ?_
      simp [history, extend, Configuration.visits]

end Path

/-- An offset and the transitions taken from there, oldest first. -/
structure Trail where
  origin : Nat
  edges : List Transition
  deriving DecidableEq

namespace Trail

variable {nfa : Nfa} {word : List Char}

/-- Where the trail begins. -/
def root (nfa : Nfa) (T : Trail) : Configuration :=
  { state := nfa.start, offset := T.origin }

/-- The configurations along the trail, where it begins and where it ends included. -/
def configurations (nfa : Nfa) (T : Trail) : List Configuration :=
  T.root nfa :: (T.root nfa).visits T.edges

/-- The path of a search that takes the trail. -/
def path (nfa : Nfa) (T : Trail) : Path :=
  (Path.seed nfa.start T.origin).along T.edges

/-- The trail with one more transition. -/
def extend (T : Trail) (t : Transition) : Trail :=
  { T with edges := T.edges ++ [t] }

theorem extend_inj {T U : Trail} {t u : Transition} :
    T.extend t = U.extend u ↔ T = U ∧ t = u := by
  cases T
  cases U
  simp only [extend, mk.injEq, ← List.concat_eq_append, List.concat_inj, and_assoc]

theorem here_path (nfa : Nfa) (T : Trail) :
    (T.path nfa).here = (T.root nfa).along T.edges :=
  Path.here_along _ _

theorem origin_path (nfa : Nfa) (T : Trail) : (T.path nfa).origin = T.origin :=
  Path.origin_along _ _

theorem history_path (nfa : Nfa) (T : Trail) :
    (T.path nfa).history = T.root nfa :: (T.root nfa).visits T.edges :=
  Path.history_along _ _

theorem configurations_extend (nfa : Nfa) (T : Trail) (t : Transition) :
    (T.extend t).configurations nfa =
      T.configurations nfa ++ [((T.root nfa).along T.edges).after t] :=
  congrArg (T.root nfa :: ·) ((T.root nfa).visits_append T.edges [t])

theorem path_extend (nfa : Nfa) (T : Trail) (t : Transition) :
    (T.extend t).path nfa = (T.path nfa).extend ((T.path nfa).here.after t) :=
  Path.along_concat _ _ _

/-- The offsets along a trail never fall. -/
theorem pairwise_visits (c : Configuration) (ts : List Transition) :
    (c :: c.visits ts).Pairwise fun a b => a.offset ≤ b.offset := by
  induction ts generalizing c with
  | nil =>
      exact List.pairwise_singleton _ _
  | cons t ts ih =>
      refine List.pairwise_cons.mpr ⟨fun d hd => ?_, ih _⟩
      have hle := (Configuration.offset_le_of_mem_visits hd).1
      rw [Configuration.offset_after] at hle
      omega

/-- A path is looped if it has been at its last configuration before. -/
theorem looped_path_iff (nfa : Nfa) (T : Trail) :
    (T.path nfa).looped = true ↔ (T.path nfa).here ∈ (T.path nfa).past := by
  refine Path.revisits_iff ?_
  have h := pairwise_visits (T.root nfa) T.edges
  rw [← history_path, Path.history, List.pairwise_reverse] at h
  exact h

/-- A trail that can be taken over a text, from an offset of the text. -/
def Runs (nfa : Nfa) (word : List Char) (T : Trail) : Prop :=
  T.origin ≤ word.length ∧ nfa.Course word (T.root nfa) T.edges

/-- A trail that visits no configuration twice. -/
def Simple (nfa : Nfa) (T : Trail) : Prop :=
  (T.root nfa).Simple T.edges

/-- One more transition closes a loop if it leads to a configuration visited before. -/
theorem looped_extend_iff (nfa : Nfa) (T : Trail) (t : Transition) :
    ((T.extend t).path nfa).looped = true ↔
      ((T.root nfa).along T.edges).after t ∈ T.root nfa :: (T.root nfa).visits T.edges := by
  rw [looped_path_iff, path_extend, ← history_path, ← here_path, Path.history,
    List.mem_reverse]
  rfl

/-- One more transition keeps a trail simple exactly if it does not close a loop. -/
theorem simple_extend_iff (nfa : Nfa) (T : Trail) (t : Transition) :
    (T.extend t).Simple nfa ↔ T.Simple nfa ∧ ((T.extend t).path nfa).looped = false := by
  rw [← Bool.not_eq_true, looped_extend_iff]
  exact Configuration.simple_concat_iff _ _ _

theorem runs_extend_iff (nfa : Nfa) (T : Trail) (t : Transition) :
    (T.extend t).Runs nfa word ↔
      T.Runs nfa word ∧ (T.path nfa).here.state = t.source ∧
        nfa.Arc t.source t.label t.target ∧ t.Passes word (T.path nfa).here.offset := by
  rw [Runs, extend, Nfa.course_concat_iff, Runs, and_assoc, here_path]
  rfl

end Trail

namespace Nfa

variable {lo hi : StateId}

/-- The transitions that can be crossed at a configuration, in the order of the edges. -/
def crossable (nfa : Nfa) (word : List Char) (c : Configuration) : List Transition :=
  (nfa.graph.transitionsFrom c.state).filter fun t => t.Passes word c.offset

theorem mem_crossable_iff
    {nfa : Nfa} (hf : nfa.graph.Filed) (word : List Char) (c : Configuration) (t : Transition) :
    t ∈ nfa.crossable word c ↔
      c.state = t.source ∧ nfa.Arc t.source t.label t.target ∧ t.Passes word c.offset := by
  rw [crossable, List.mem_filter, mem_transitionsFrom_iff hf, decide_eq_true_iff, and_assoc]

/-- The moves of a search cross these transitions. -/
theorem moves_eq (nfa : Nfa) (word : List Char) (c : Configuration) :
    nfa.moves word c = (nfa.crossable word c).map c.after := by
  rw [moves, crossable, Graph.row, List.filterMap_map]
  induction nfa.graph.transitionsFrom c.state with
  | nil =>
      rfl
  | cons t ts ih =>
      rw [List.filterMap_cons, List.filter_cons, ih, Function.comp_apply, Transition.edge]
      cases hcross : t.label.cross? word c.offset with
      | none =>
          have hnot : ¬ t.Passes word c.offset := by
            simp [Transition.Passes, hcross]
          rw [if_neg (by simpa using hnot)]
          rfl
      | some o =>
          obtain ⟨hpass, ho⟩ := Transition.cross?_eq_some_iff.mp hcross
          rw [if_pos (by simpa using hpass), ho]
          rfl

/-- The trails that go on from a trail by one transition. -/
def prolong (nfa : Nfa) (word : List Char) (T : Trail) : List Trail :=
  (nfa.crossable word (T.path nfa).here).map T.extend

theorem successors_path (nfa : Nfa) (word : List Char) (T : Trail) :
    (T.path nfa).successors nfa word = (nfa.prolong word T).map (Trail.path nfa) := by
  rw [Path.successors, moves_eq, prolong, List.map_map, List.map_map]
  refine List.map_congr_left fun t _ => ?_
  exact (T.path_extend nfa t).symm

/-- The simple trails with `k` edges, in the order in which a search takes them. -/
def trails (nfa : Nfa) (word : List Char) : (k : Nat) → List Trail
  | 0 => (List.range (word.length + 1)).map fun i => { origin := i, edges := [] }
  | k + 1 =>
      ((nfa.trails word k).flatMap (nfa.prolong word)).filter fun T => !(T.path nfa).looped

/-- What a round offers after `k` rounds: the trails with one edge more, loops included. -/
def offered (nfa : Nfa) (word : List Char) (k : Nat) : List Trail :=
  (nfa.trails word k).flatMap (nfa.prolong word)

theorem trails_succ (nfa : Nfa) (word : List Char) (k : Nat) :
    nfa.trails word (k + 1) = (nfa.offered word k).filter fun T => !(T.path nfa).looped := by
  rfl

theorem mem_trails_iff
    {nfa : Nfa} (hf : nfa.graph.Filed) (word : List Char) (k : Nat) (T : Trail) :
    T ∈ nfa.trails word k ↔
      T.Runs nfa word ∧ T.Simple nfa ∧ T.edges.length = k := by
  induction k generalizing T with
  | zero =>
      rcases T with ⟨origin, edges⟩
      simp only [trails, List.mem_map, List.mem_range, Trail.mk.injEq, Trail.Runs,
        List.length_eq_zero_iff]
      constructor
      · rintro ⟨i, hi, rfl, rfl⟩
        exact ⟨⟨Nat.le_of_lt_succ hi, trivial⟩, Configuration.simple_nil _, rfl⟩
      · rintro ⟨⟨hi, -⟩, -, rfl⟩
        exact ⟨origin, Nat.lt_succ_of_le hi, rfl, rfl⟩
  | succ k ih =>
      simp only [trails_succ, offered, List.mem_filter, List.mem_flatMap, prolong, List.mem_map,
        mem_crossable_iff hf, ih, Bool.not_eq_true']
      constructor
      · rintro ⟨⟨U, ⟨hruns, hsimple, hlen⟩, t, hcross, rfl⟩, hloop⟩
        refine ⟨(U.runs_extend_iff nfa t).mpr ⟨hruns, hcross⟩,
          (U.simple_extend_iff nfa t).mpr ⟨hsimple, hloop⟩, ?_⟩
        rw [Trail.extend, List.length_append, hlen, List.length_singleton]
      · rintro ⟨hruns, hsimple, hlen⟩
        rcases T with ⟨origin, edges⟩
        rcases List.eq_nil_or_concat edges with rfl | ⟨ts, t, rfl⟩
        · cases hlen
        · rw [List.concat_eq_append] at hruns hsimple hlen ⊢
          obtain ⟨hU, hcross⟩ := (Trail.runs_extend_iff nfa ⟨origin, ts⟩ t).mp hruns
          obtain ⟨hsimple', hloop⟩ := (Trail.simple_extend_iff nfa ⟨origin, ts⟩ t).mp hsimple
          rw [List.length_append, List.length_singleton, Nat.add_right_cancel_iff] at hlen
          exact ⟨⟨⟨origin, ts⟩, ⟨hU, hsimple', hlen⟩, t, hcross, rfl⟩, hloop⟩

/-- No trail is taken twice. -/
theorem nodup_offered
    {nfa : Nfa} (hn : nfa.Shaped lo hi) (word : List Char) (k : Nat)
    (htrails : (nfa.trails word k).Nodup) : (nfa.offered word k).Nodup := by
  rw [offered, List.nodup_flatMap]
  refine ⟨fun T _ => ?_, htrails.imp fun {T U} hne => ?_⟩
  · have hfrom : (nfa.graph.transitionsFrom (T.path nfa).here.state).Nodup :=
      nodup_transitionsFrom (hn.nodup_targets _).of_map
    exact (hfrom.filter _).map fun t t' h => (Trail.extend_inj.mp h).2
  · intro V hT hU
    obtain ⟨t, -, rfl⟩ := List.mem_map.mp hT
    obtain ⟨u, -, hu⟩ := List.mem_map.mp hU
    exact hne (Trail.extend_inj.mp hu).1.symm

theorem nodup_trails
    {nfa : Nfa} (hn : nfa.Shaped lo hi) (word : List Char) (k : Nat) :
    (nfa.trails word k).Nodup := by
  induction k with
  | zero =>
      refine List.nodup_range.map fun i j h => ?_
      exact congrArg Trail.origin h
  | succ k ih =>
      exact (nodup_offered hn word k ih).filter _

/-- Simple trails are shorter than the number of configurations. -/
theorem trails_eq_nil
    {nfa : Nfa} (hn : nfa.Shaped lo hi) (word : List Char) :
    nfa.trails word (nfa.graph.states.length * (word.length + 1)) = [] := by
  refine List.eq_nil_iff_forall_not_mem.mpr fun T hT => ?_
  obtain ⟨hruns, hsimple, hlen⟩ := (mem_trails_iff hn.filed word _ T).mp hT
  have hlt := hruns.2.length_lt hn hn.start_owned hruns.1 hsimple
  omega

theorem trails_eq_nil_of_le
    {nfa : Nfa} {word : List Char} {m k : Nat} (hm : nfa.trails word m = []) (hle : m ≤ k) :
    nfa.trails word k = [] := by
  induction k, hle using Nat.le_induction with
  | base =>
      exact hm
  | succ k _ ih =>
      rw [trails_succ, offered, ih]
      rfl

/-- Where there are no trails, all simple trails are shorter. -/
theorem length_lt_of_trails_eq_nil
    {nfa : Nfa} (hf : nfa.graph.Filed) {word : List Char} {m : Nat}
    (hm : nfa.trails word m = []) {T : Trail} (hruns : T.Runs nfa word)
    (hsimple : T.Simple nfa) : T.edges.length < m := by
  by_contra hge
  have hnil := trails_eq_nil_of_le hm (Nat.le_of_not_lt hge)
  exact List.not_mem_nil (hnil ▸ (mem_trails_iff hf word _ T).mpr ⟨hruns, hsimple, rfl⟩)

end Nfa

end Backtracking
