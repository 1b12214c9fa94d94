import Backtracking.Graph.View
import Backtracking.Nfa.Thompson
import Mathlib.Data.List.Nodup
import Mathlib.Tactic

/-!
# The automata of Thompson's construction

Every automaton that the construction makes is assembled from atoms by three
combinators: one automaton after the other, two side by side, and one in a frame that
may be passed by or entered again.  `Nfa.Fragment` says so without the pattern, so that
a property of all compiled automata is proved by four cases.

**Shape.**  `Nfa.Shaped` collects what all of them have in common: consecutive states,
one way in and one way out, no parallel edges, and edges of characters and anchors that
are the only ones out of their source.

**Results.**
* `Nfa.Fragment.shaped`: every fragment has this shape.
* `Nfa.atom_eq_ok`, `Nfa.Shaped.chain_eq_ok`, `Nfa.Shaped.branch_eq_ok`,
  `Nfa.Shaped.wrap_eq_ok`: the ends, states and edges of what a combinator makes.
-/

namespace Backtracking

/-- A computation that binds another one succeeds if both do. -/
theorem exists_of_bind_eq_ok
    {ε α β : Type} {x : Except ε α} {f : α → Except ε β} {b : β}
    (h : (x >>= f) = .ok b) : ∃ a, x = .ok a ∧ f a = .ok b := by
  cases x with
  | error e =>
      cases h
  | ok a =>
      exact ⟨a, rfl, h⟩

/-- A computation that succeeds hands its result on. -/
theorem bind_eq_of_eq_ok {ε α β : Type} {x : Except ε α} {a : α} {f : α → Except ε β}
    (h : x = .ok a) : (x >>= f) = f a := by
  rw [h]
  rfl

/-- It fails if one of the two fails. -/
theorem eq_error_or_exists_of_bind_eq_error
    {ε α β : Type} {x : Except ε α} {f : α → Except ε β} {e : ε}
    (h : (x >>= f) = .error e) : x = .error e ∨ ∃ a, x = .ok a ∧ f a = .error e := by
  cases x with
  | error e' =>
      obtain rfl := Except.error.inj h
      exact Or.inl rfl
  | ok a =>
      exact Or.inr ⟨a, rfl, h⟩

theorem eq_ok_of_toOption_eq_some
    {ε α : Type} {x : Except ε α} {a : α} (h : x.toOption = some a) : x = .ok a := by
  cases x with
  | error e =>
      cases h
  | ok b =>
      exact congrArg Except.ok (Option.some.inj h)

namespace Nfa

/-- The automaton has an edge from `s` to `t` labelled `l`. -/
def Arc (nfa : Nfa) (s : StateId) (l : Label) (t : StateId) : Prop :=
  ⟨l, t⟩ ∈ nfa.graph.row s

/-- The automaton owns a state. -/
def Owns (nfa : Nfa) (s : StateId) : Prop :=
  nfa.graph.owns s = true

/-- The row of a state that has one silent edge, which leads from `source` to `target`. -/
def silentRow (source target s : StateId) : List Edge :=
  if source = s then [⟨.epsilon, target⟩] else []

theorem mem_silentRow_iff
    (source target s : StateId) (l : Label) (t : StateId) :
    (⟨l, t⟩ : Edge) ∈ silentRow source target s ↔
      s = source ∧ l = .epsilon ∧ t = target := by
  rw [silentRow]
  split_ifs with h
  · simp [h]
  · simp [Ne.symm h]

/-- The row of a state in a chain. -/
def chainRow (first second : Nfa) (s : StateId) : List Edge :=
  first.graph.row s ++ second.graph.row s ++ silentRow first.finish second.start s

/-- The row of a state in two automata with a frame around them. -/
def branchRow (left right : Nfa) (next s : StateId) : List Edge :=
  left.graph.row s ++ silentRow next left.start s ++
    silentRow left.finish (next + 1) s ++ right.graph.row s ++
    silentRow next right.start s ++ silentRow right.finish (next + 1) s

/-- The row of a state in one automaton with a frame around it. -/
def wrapRow (body : Nfa) (next : StateId) (skip again : Bool) (s : StateId) : List Edge :=
  body.graph.row s ++ silentRow next body.start s ++
    silentRow body.finish (next + 1) s ++
    (if skip then silentRow next (next + 1) s else []) ++
    (if again then silentRow body.finish body.start s else [])

/-- An edge between owned states can be added. -/
theorem exists_connect
    {nfa : Nfa} {s t : StateId} (hs : nfa.Owns s) (ht : nfa.Owns t) (l : Label) :
    ∃ nfa' : Nfa, nfa.connect s l t = .ok nfa' ∧
      nfa'.start = nfa.start ∧ nfa'.finish = nfa.finish ∧
      (∀ r, nfa'.Owns r ↔ nfa.Owns r) ∧
      ∀ r, nfa'.graph.row r =
        nfa.graph.row r ++ if s = r then [⟨l, t⟩] else [] := by
  obtain ⟨g, hadd⟩ :=
    (Graph.exists_addTransition_iff (t := { source := s, label := l, target := t })).mpr ⟨hs, ht⟩
  obtain ⟨hstart, howns, -⟩ := Graph.addTransition_eq_ok hadd
  refine ⟨{ nfa with graph := g }, ?_, hstart, rfl, fun r => ?_, fun r => ?_⟩
  · simp only [connect, hadd]
    rfl
  · simp only [Owns, howns]
  · rw [Graph.row_of_addTransition hadd]
    split_ifs
    · rfl
    · exact (List.append_nil _).symm

/-- A silent edge between owned states can be added. -/
theorem exists_connect_silent
    (nfa : Nfa) {s t : StateId} (hs : nfa.Owns s) (ht : nfa.Owns t) :
    ∃ nfa' : Nfa, nfa.connect s .epsilon t = .ok nfa' ∧
      nfa'.start = nfa.start ∧ nfa'.finish = nfa.finish ∧
      (∀ r, nfa'.Owns r ↔ nfa.Owns r) ∧
      ∀ r, nfa'.graph.row r = nfa.graph.row r ++ silentRow s t r :=
  exists_connect hs ht .epsilon

/-- A silent edge that is added under a condition only. -/
theorem exists_connect_if
    (nfa : Nfa) {s t : StateId} (hs : nfa.Owns s) (ht : nfa.Owns t) (wanted : Bool) :
    ∃ nfa' : Nfa, (if wanted then nfa.connect s .epsilon t else pure nfa) = .ok nfa' ∧
      nfa'.start = nfa.start ∧ nfa'.finish = nfa.finish ∧
      (∀ r, nfa'.Owns r ↔ nfa.Owns r) ∧
      ∀ r, nfa'.graph.row r =
        nfa.graph.row r ++ if wanted then silentRow s t r else [] := by
  cases wanted with
  | false =>
      exact ⟨nfa, rfl, rfl, rfl, fun _ => Iff.rfl, fun r => (List.append_nil _).symm⟩
  | true =>
      exact exists_connect_silent nfa hs ht

theorem owns_frame (next s : StateId) :
    (frame next).Owns s ↔ s = next ∨ s = next + 1 := by
  simp [Owns, frame, bracket, or_comm]

theorem row_frame (next s : StateId) : (frame next).graph.row s = [] := by
  simp [frame, bracket]

theorem owns_absorb (nfa part : Nfa) (s : StateId) :
    (nfa.absorb part).Owns s ↔ nfa.Owns s ∨ part.Owns s := by
  simp [Owns, absorb]

theorem row_absorb (nfa part : Nfa) (s : StateId) :
    (nfa.absorb part).graph.row s = nfa.graph.row s ++ part.graph.row s := by
  simp [absorb]

/-- An atom is two states and one edge. -/
theorem exists_atom (label : Label) (next : StateId) :
    ∃ nfa, atom label next = .ok nfa ∧ nfa.start = next ∧ nfa.finish = next + 1 ∧
      (∀ s, nfa.Owns s ↔ s = next ∨ s = next + 1) ∧
      ∀ s, nfa.graph.row s = if next = s then [⟨label, next + 1⟩] else [] := by
  obtain ⟨nfa, hok, hstart, hfinish, howns, hrow⟩ :=
    exists_connect ((owns_frame next next).mpr (Or.inl rfl))
      ((owns_frame next (next + 1)).mpr (Or.inr rfl)) label
  refine ⟨nfa, hok, hstart, hfinish, fun s => ?_, fun s => ?_⟩
  · rw [howns, owns_frame]
  · rw [hrow, row_frame, List.nil_append]

/-- A chain joins the first finish to the second start. -/
theorem exists_chain
    {first second : Nfa} (hf : first.Owns first.finish) (hs : second.Owns second.start) :
    ∃ nfa, first.chain second = .ok nfa ∧
      nfa.start = first.start ∧ nfa.finish = second.finish ∧
      (∀ s, nfa.Owns s ↔ first.Owns s ∨ second.Owns s) ∧
      ∀ s, nfa.graph.row s = first.chainRow second s := by
  obtain ⟨nfa, hok, hstart, hfinish, howns, hrow⟩ :=
    exists_connect_silent { first.absorb second with finish := second.finish }
      ((owns_absorb first second _).mpr (Or.inl hf))
      ((owns_absorb first second _).mpr (Or.inr hs))
  refine ⟨nfa, hok, hstart, hfinish, fun s => ?_, fun s => ?_⟩
  · rw [howns]
    exact owns_absorb first second s
  · rw [hrow, chainRow, ← row_absorb]

/-- A detour adds a way from the start of the outer automaton to its finish. -/
theorem exists_detour
    (outer : Nfa) {part : Nfa}
    (hos : outer.Owns outer.start) (hof : outer.Owns outer.finish)
    (hps : part.Owns part.start) (hpf : part.Owns part.finish) :
    ∃ nfa, outer.detour part = .ok nfa ∧
      nfa.start = outer.start ∧ nfa.finish = outer.finish ∧
      (∀ s, nfa.Owns s ↔ outer.Owns s ∨ part.Owns s) ∧
      ∀ s, nfa.graph.row s = outer.graph.row s ++ part.graph.row s ++
        silentRow outer.start part.start s ++ silentRow part.finish outer.finish s := by
  obtain ⟨entered, hok, hstart, hfinish, howns, hrow⟩ :=
    exists_connect_silent (outer.absorb part)
      ((owns_absorb outer part _).mpr (Or.inl hos))
      ((owns_absorb outer part _).mpr (Or.inr hps))
  obtain ⟨nfa, hok', hstart', hfinish', howns', hrow'⟩ :=
    exists_connect_silent entered
      ((howns _).mpr ((owns_absorb outer part _).mpr (Or.inr hpf)))
      ((howns _).mpr ((owns_absorb outer part _).mpr (Or.inl hof)))
  refine ⟨nfa, ?_, hstart'.trans hstart, hfinish'.trans hfinish, fun s => ?_, fun s => ?_⟩
  · rw [detour, hok]
    exact hok'
  · rw [howns', howns, owns_absorb]
  · rw [hrow', hrow, row_absorb]

/-- Two automata are taken into an outer one, side by side. -/
theorem exists_embrace
    (outer : Nfa) {left right : Nfa}
    (hos : outer.Owns outer.start) (hof : outer.Owns outer.finish)
    (hls : left.Owns left.start) (hlf : left.Owns left.finish)
    (hrs : right.Owns right.start) (hrf : right.Owns right.finish) :
    ∃ nfa, outer.embrace left right = .ok nfa ∧
      nfa.start = outer.start ∧ nfa.finish = outer.finish ∧
      (∀ s, nfa.Owns s ↔ (outer.Owns s ∨ left.Owns s) ∨ right.Owns s) ∧
      ∀ s, nfa.graph.row s = outer.graph.row s ++ left.graph.row s ++
        silentRow outer.start left.start s ++ silentRow left.finish outer.finish s ++
        right.graph.row s ++ silentRow outer.start right.start s ++
        silentRow right.finish outer.finish s := by
  obtain ⟨half, hok, hstart, hfinish, howns, hrow⟩ := exists_detour outer hos hof hls hlf
  have hhalf : ∀ s, outer.Owns s → half.Owns s := fun s hs => (howns s).mpr (Or.inl hs)
  obtain ⟨nfa, hok', hstart', hfinish', howns', hrow'⟩ :=
    exists_detour half (hstart ▸ hhalf _ hos) (hfinish ▸ hhalf _ hof) hrs hrf
  refine ⟨nfa, ?_, hstart'.trans hstart, hfinish'.trans hfinish, fun s => ?_, fun s => ?_⟩
  · rw [embrace, hok]
    exact hok'
  · rw [howns', howns]
  · rw [hrow', hrow, hstart, hfinish]

/-- Two automata in a frame, side by side. -/
theorem exists_branch
    {left right : Nfa}
    (hls : left.Owns left.start) (hlf : left.Owns left.finish)
    (hrs : right.Owns right.start) (hrf : right.Owns right.finish) (next : StateId) :
    ∃ nfa, left.branch right next = .ok nfa ∧
      nfa.start = next ∧ nfa.finish = next + 1 ∧
      (∀ s, nfa.Owns s ↔ left.Owns s ∨ right.Owns s ∨ s = next ∨ s = next + 1) ∧
      ∀ s, nfa.graph.row s = left.branchRow right next s := by
  obtain ⟨nfa, hok, hstart, hfinish, howns, hrow⟩ :=
    exists_embrace (frame next) ((owns_frame next _).mpr (Or.inl rfl))
      ((owns_frame next _).mpr (Or.inr rfl)) hls hlf hrs hrf
  refine ⟨nfa, hok, hstart, hfinish, fun s => ?_, fun s => ?_⟩
  · rw [howns, owns_frame]
    tauto
  · rw [hrow, row_frame, List.nil_append]
    rfl

/-- An automaton is taken into an outer one, where it may be passed by or entered again. -/
theorem exists_enclose
    (outer : Nfa) {body : Nfa}
    (hos : outer.Owns outer.start) (hof : outer.Owns outer.finish)
    (hbs : body.Owns body.start) (hbf : body.Owns body.finish) (skip again : Bool) :
    ∃ nfa, outer.enclose body skip again = .ok nfa ∧
      nfa.start = outer.start ∧ nfa.finish = outer.finish ∧
      (∀ s, nfa.Owns s ↔ outer.Owns s ∨ body.Owns s) ∧
      ∀ s, nfa.graph.row s = outer.graph.row s ++ body.graph.row s ++
        silentRow outer.start body.start s ++ silentRow body.finish outer.finish s ++
        (if skip then silentRow outer.start outer.finish s else []) ++
        (if again then silentRow body.finish body.start s else []) := by
  obtain ⟨once, hok, hstart, hfinish, howns, hrow⟩ := exists_detour outer hos hof hbs hbf
  obtain ⟨skipped, hok', hstart', hfinish', howns', hrow'⟩ :=
    exists_connect_if once ((howns _).mpr (Or.inl hos)) ((howns _).mpr (Or.inl hof)) skip
  obtain ⟨nfa, hok'', hstart'', hfinish'', howns'', hrow''⟩ :=
    exists_connect_if skipped
      ((howns' _).mpr ((howns _).mpr (Or.inr hbf)))
      ((howns' _).mpr ((howns _).mpr (Or.inr hbs))) again
  refine ⟨nfa, ?_, hstart''.trans (hstart'.trans hstart),
    hfinish''.trans (hfinish'.trans hfinish), fun s => ?_, fun s => ?_⟩
  · rw [enclose, hok]
    cases skip with
    | false =>
        obtain rfl := Except.ok.inj hok'
        exact hok''
    | true =>
        change (once.connect outer.start .epsilon outer.finish >>= _) = _
        rw [show once.connect outer.start .epsilon outer.finish = .ok skipped from hok']
        exact hok''
  · rw [howns'', howns', howns]
  · rw [hrow'', hrow', hrow]

/-- An automaton in a frame that may be passed by or entered again. -/
theorem exists_wrap
    {body : Nfa} (hbs : body.Owns body.start) (hbf : body.Owns body.finish)
    (next : StateId) (skip again : Bool) :
    ∃ nfa, body.wrap next skip again = .ok nfa ∧
      nfa.start = next ∧ nfa.finish = next + 1 ∧
      (∀ s, nfa.Owns s ↔ body.Owns s ∨ s = next ∨ s = next + 1) ∧
      ∀ s, nfa.graph.row s = body.wrapRow next skip again s := by
  obtain ⟨nfa, hok, hstart, hfinish, howns, hrow⟩ :=
    exists_enclose (frame next) ((owns_frame next _).mpr (Or.inl rfl))
      ((owns_frame next _).mpr (Or.inr rfl)) hbs hbf skip again
  refine ⟨nfa, hok, hstart, hfinish, fun s => ?_, fun s => ?_⟩
  · rw [howns, owns_frame]
    tauto
  · rw [hrow, row_frame, List.nil_append]
    rfl

/-- The edge of an atom. -/
theorem arc_atom_iff
    {nfa : Nfa} {label : Label} {next : StateId}
    (hrow : ∀ s, nfa.graph.row s = if next = s then [⟨label, next + 1⟩] else [])
    {s : StateId} {l : Label} {t : StateId} :
    nfa.Arc s l t ↔ s = next ∧ l = label ∧ t = next + 1 := by
  rw [Arc, hrow]
  split_ifs with h
  · simp [h]
  · simp [Ne.symm h]

/-- The edges of a chain. -/
theorem arc_chain_iff
    {first second nfa : Nfa}
    (hrow : ∀ s, nfa.graph.row s = first.chainRow second s)
    {s : StateId} {l : Label} {t : StateId} :
    nfa.Arc s l t ↔
      first.Arc s l t ∨ second.Arc s l t ∨
        (s = first.finish ∧ l = .epsilon ∧ t = second.start) := by
  rw [Arc, hrow, chainRow, List.mem_append, List.mem_append, mem_silentRow_iff, or_assoc]
  rfl

/-- The edges of two automata in a frame. -/
theorem arc_branch_iff
    {left right nfa : Nfa} {next : StateId}
    (hrow : ∀ s, nfa.graph.row s = left.branchRow right next s)
    {s : StateId} {l : Label} {t : StateId} :
    nfa.Arc s l t ↔
      left.Arc s l t ∨ right.Arc s l t ∨
        l = .epsilon ∧ (s = next ∧ (t = left.start ∨ t = right.start) ∨
          (s = left.finish ∨ s = right.finish) ∧ t = next + 1) := by
  rw [Arc, hrow, branchRow]
  simp only [List.mem_append, mem_silentRow_iff]
  change (((((left.Arc s l t ∨ _) ∨ _) ∨ right.Arc s l t) ∨ _) ∨ _) ↔ _
  tauto

/-- The edges of one automaton in a frame. -/
theorem arc_wrap_iff
    {body nfa : Nfa} {next : StateId} {skip again : Bool}
    (hrow : ∀ s, nfa.graph.row s = body.wrapRow next skip again s)
    {s : StateId} {l : Label} {t : StateId} :
    nfa.Arc s l t ↔
      body.Arc s l t ∨
        l = .epsilon ∧ (s = next ∧ (t = body.start ∨ skip = true ∧ t = next + 1) ∨
          s = body.finish ∧ (t = next + 1 ∨ again = true ∧ t = body.start)) := by
  rw [Arc, hrow, wrapRow, Arc]
  cases skip <;> cases again <;>
    simp only [List.mem_append, mem_silentRow_iff, if_true, Bool.false_eq_true, if_false,
      List.not_mem_nil, or_false, false_and, true_and] <;>
    tauto

section Filed

variable {nfa nfa' outer part first second left right body : Nfa} {next : StateId}

theorem filed_frame (next : StateId) : (frame next).graph.Filed :=
  (Graph.filed_single next).addState (next + 1)

theorem filed_connect
    {s t : StateId} {l : Label} (h : nfa.graph.Filed) (hok : nfa.connect s l t = .ok nfa') :
    nfa'.graph.Filed := by
  obtain ⟨g, hadd, hpure⟩ := exists_of_bind_eq_ok hok
  obtain rfl := Except.ok.inj hpure
  exact h.addTransition hadd

theorem filed_atom {label : Label} (hok : atom label next = .ok nfa) : nfa.graph.Filed :=
  filed_connect (filed_frame next) hok

theorem filed_chain
    (hf : first.graph.Filed) (hs : second.graph.Filed) (hok : first.chain second = .ok nfa) :
    nfa.graph.Filed := by
  refine filed_connect ?_ hok
  exact hf.merge hs

theorem filed_detour
    (ho : outer.graph.Filed) (hp : part.graph.Filed) (hok : outer.detour part = .ok nfa) :
    nfa.graph.Filed := by
  obtain ⟨entered, hentered, hleft⟩ := exists_of_bind_eq_ok hok
  have habsorb : (outer.absorb part).graph.Filed := ho.merge hp
  exact filed_connect (filed_connect habsorb hentered) hleft

theorem filed_branch
    (hl : left.graph.Filed) (hr : right.graph.Filed) (hok : left.branch right next = .ok nfa) :
    nfa.graph.Filed := by
  obtain ⟨half, hhalf, hright⟩ := exists_of_bind_eq_ok hok
  exact filed_detour (filed_detour (filed_frame next) hl hhalf) hr hright

theorem filed_wrap
    {skip again : Bool} (hb : body.graph.Filed) (hok : body.wrap next skip again = .ok nfa) :
    nfa.graph.Filed := by
  obtain ⟨once, honce, hrest⟩ := exists_of_bind_eq_ok hok
  have hone := filed_detour (filed_frame next) hb honce
  have hskipped : ∃ skipped : Nfa, skipped.graph.Filed ∧
      (if again then skipped.connect body.finish .epsilon body.start else pure skipped) =
        .ok nfa := by
    cases skip with
    | false => exact ⟨once, hone, hrest⟩
    | true =>
        obtain ⟨skipped, hskip, hagain⟩ := exists_of_bind_eq_ok hrest
        exact ⟨skipped, filed_connect hone hskip, hagain⟩
  obtain ⟨skipped, hfiled, hagain⟩ := hskipped
  cases again with
  | false =>
      obtain rfl := Except.ok.inj hagain
      exact hfiled
  | true => exact filed_connect hfiled hagain

end Filed

/-- An automaton with the states from `lo` up to, but not including, `hi`, as the
construction assembles it. -/
inductive Fragment : StateId → StateId → Nfa → Prop
  | atom
      {label : Label} {next : StateId} {nfa : Nfa}
      (hok : Nfa.atom label next = .ok nfa) :
      Fragment next (next + 2) nfa
  | chain
      {lo mid hi : StateId} {first second nfa : Nfa}
      (hfirst : Fragment lo mid first) (hsecond : Fragment mid hi second)
      (hok : first.chain second = .ok nfa) :
      Fragment lo hi nfa
  | branch
      {lo mid hi : StateId} {left right nfa : Nfa}
      (hleft : Fragment lo mid left) (hright : Fragment mid hi right)
      (hok : left.branch right hi = .ok nfa) :
      Fragment lo (hi + 2) nfa
  | wrap
      {lo hi : StateId} {body nfa : Nfa} {skip again : Bool}
      (hbody : Fragment lo hi body)
      (hok : body.wrap hi skip again = .ok nfa) :
      Fragment lo (hi + 2) nfa

/-- The states of a fragment and how its edges lie. -/
structure Shaped (lo hi : StateId) (nfa : Nfa) : Prop where
  owns_iff : ∀ s, nfa.Owns s ↔ lo ≤ s ∧ s < hi
  start_owned : nfa.Owns nfa.start
  finish_owned : nfa.Owns nfa.finish
  start_ne_finish : nfa.start ≠ nfa.finish
  /-- Edges join owned states. -/
  inside : ∀ {s l t}, nfa.Arc s l t → nfa.Owns s ∧ nfa.Owns t
  no_arc_into_start : ∀ {s l}, ¬ nfa.Arc s l nfa.start
  no_arc_from_finish : ∀ {l t}, ¬ nfa.Arc nfa.finish l t
  /-- No two edges are parallel. -/
  nodup_targets : ∀ s, ((nfa.graph.row s).map Edge.target).Nodup
  /-- The edge of a character or an anchor is the only one out of its source. -/
  lone : ∀ {s l t}, nfa.Arc s l t → l ≠ .epsilon → nfa.graph.row s = [⟨l, t⟩]
  /-- The edge of a character is the only one into its target. -/
  entry : ∀ {s c t s' l}, nfa.Arc s (.char c) t → nfa.Arc s' l t → s' = s ∧ l = .char c
  filed : nfa.graph.Filed

namespace Shaped

variable {lo mid hi : StateId} {nfa first second left right body : Nfa}

theorem row_eq_nil (hn : nfa.Shaped lo hi) {s : StateId} (hs : ¬ nfa.Owns s) :
    nfa.graph.row s = [] :=
  List.eq_nil_iff_forall_not_mem.mpr fun e he => hs (hn.inside (l := e.label) (t := e.target) he).1

theorem row_finish (hn : nfa.Shaped lo hi) : nfa.graph.row nfa.finish = [] :=
  List.eq_nil_iff_forall_not_mem.mpr fun e he =>
    hn.no_arc_from_finish (l := e.label) (t := e.target) he

theorem atom
    {label : Label} {next : StateId}
    (hok : Nfa.atom label next = .ok nfa) : nfa.Shaped next (next + 2) := by
  obtain ⟨nfa', hok', hstart, hfinish, howns, hrow⟩ := exists_atom label next
  obtain rfl := Except.ok.inj (hok.symm.trans hok')
  have harc : ∀ {s l t}, nfa.Arc s l t ↔ _ := arc_atom_iff hrow
  refine ⟨fun s => ?_, ?_, ?_, ?_, ?_, ?_, ?_, fun s => ?_, ?_, ?_, filed_atom hok⟩
  · rw [howns]
    lia
  · exact (howns _).mpr (Or.inl hstart)
  · exact (howns _).mpr (Or.inr hfinish)
  · lia
  · intro s l t h
    obtain ⟨rfl, -, rfl⟩ := harc.mp h
    exact ⟨(howns _).mpr (Or.inl rfl), (howns _).mpr (Or.inr rfl)⟩
  · intro s l h
    have := (harc.mp h).2.2
    lia
  · intro l t h
    have := (harc.mp h).1
    lia
  · rw [hrow]
    split_ifs <;> simp
  · intro s l t h hl
    obtain ⟨rfl, rfl, rfl⟩ := harc.mp h
    rw [hrow, if_pos rfl]
  · intro s c t s' l h h'
    obtain ⟨rfl, hc, rfl⟩ := harc.mp h
    obtain ⟨rfl, rfl, -⟩ := harc.mp h'
    exact ⟨rfl, hc.symm⟩

/-- Automata that share no states, in one automaton with silent edges between them: each
row is the row of a part, or it holds silent edges to the starts of parts and to states
that no part owns. -/
structure Assembled (parts : List Nfa) (nfa : Nfa) : Prop where
  shaped : ∀ part ∈ parts, ∃ lo hi, part.Shaped lo hi
  apart : ∀ part ∈ parts, ∀ other ∈ parts, ∀ {s}, part.Owns s → other.Owns s → part = other
  row : ∀ s, (∃ part ∈ parts, nfa.graph.row s = part.graph.row s) ∨
    ∃ targets : List StateId, targets.Nodup ∧
      nfa.graph.row s = targets.map (Edge.mk .epsilon) ∧
      ∀ t ∈ targets, ∀ part ∈ parts, part.Owns t → t = part.start

namespace Assembled

variable {parts : List Nfa}

theorem nodup_targets (h : Assembled parts nfa) (s : StateId) :
    ((nfa.graph.row s).map Edge.target).Nodup := by
  rcases h.row s with ⟨part, hpart, hrow⟩ | ⟨targets, hnodup, hrow, -⟩
  · obtain ⟨lo, hi, hp⟩ := h.shaped part hpart
    rw [hrow]
    exact hp.nodup_targets s
  · have htargets : Edge.target ∘ Edge.mk .epsilon = id := rfl
    rw [hrow, List.map_map, htargets, List.map_id]
    exact hnodup

/-- An edge of a character or an anchor is an edge of a part, whose row is kept. -/
theorem exists_part
    (h : Assembled parts nfa) {s : StateId} {l : Label} {t : StateId}
    (harc : nfa.Arc s l t) (hl : l ≠ .epsilon) :
    ∃ part ∈ parts, part.Arc s l t ∧ nfa.graph.row s = part.graph.row s := by
  rcases h.row s with ⟨part, hpart, hrow⟩ | ⟨targets, -, hrow, -⟩
  · rw [Arc, hrow] at harc
    exact ⟨part, hpart, harc, hrow⟩
  · rw [Arc, hrow, List.mem_map] at harc
    obtain ⟨t', -, he⟩ := harc
    obtain ⟨rfl, rfl⟩ := Edge.mk.inj he
    exact absurd rfl hl

theorem lone
    (h : Assembled parts nfa) {s : StateId} {l : Label} {t : StateId}
    (harc : nfa.Arc s l t) (hl : l ≠ .epsilon) : nfa.graph.row s = [⟨l, t⟩] := by
  obtain ⟨part, hpart, harc', hrow⟩ := h.exists_part harc hl
  obtain ⟨lo, hi, hp⟩ := h.shaped part hpart
  rw [hrow]
  exact hp.lone harc' hl

theorem entry
    (h : Assembled parts nfa) {s : StateId} {c : Char} {t s' : StateId} {l : Label}
    (harc : nfa.Arc s (.char c) t) (harc' : nfa.Arc s' l t) : s' = s ∧ l = .char c := by
  obtain ⟨part, hpart, hchar, -⟩ := h.exists_part harc Label.noConfusion
  obtain ⟨lo, hi, hp⟩ := h.shaped part hpart
  rcases h.row s' with ⟨other, hother, hrow⟩ | ⟨targets, -, hrow, htargets⟩
  · rw [Arc, hrow] at harc'
    obtain ⟨lo', hi', ho⟩ := h.shaped other hother
    obtain rfl := h.apart part hpart other hother (hp.inside hchar).2 (ho.inside harc').2
    exact hp.entry hchar harc'
  · -- a silent edge into the part could only reach its start
    rw [Arc, hrow, List.mem_map] at harc'
    obtain ⟨t', ht', he⟩ := harc'
    obtain ⟨rfl, rfl⟩ := Edge.mk.inj he
    obtain rfl := htargets t' ht' part hpart (hp.inside hchar).2
    exact absurd hchar hp.no_arc_into_start

end Assembled

/-- No state is in two automata that are numbered one after the other. -/
theorem apart
    (hf : first.Shaped lo mid) (hs : second.Shaped mid hi) {s : StateId}
    (h : first.Owns s) : ¬ second.Owns s := by
  intro h'
  rw [hf.owns_iff] at h
  rw [hs.owns_iff] at h'
  lia

theorem apart_pair
    (hf : first.Shaped lo mid) (hs : second.Shaped mid hi) :
    ∀ part ∈ [first, second], ∀ other ∈ [first, second], ∀ {s},
      part.Owns s → other.Owns s → part = other := by
  intro part hpart other hother s h h'
  rw [List.mem_pair] at hpart hother
  rcases hpart with rfl | rfl <;> rcases hother with rfl | rfl
  · rfl
  · exact absurd h' (hf.apart hs h)
  · exact absurd h (hf.apart hs h')
  · rfl

theorem shaped_pair
    (hf : first.Shaped lo mid) (hs : second.Shaped mid hi) :
    ∀ part ∈ [first, second], ∃ lo hi, part.Shaped lo hi := by
  intro part hpart
  rw [List.mem_pair] at hpart
  rcases hpart with rfl | rfl
  · exact ⟨lo, mid, hf⟩
  · exact ⟨mid, hi, hs⟩

theorem assembled_chain
    (hf : first.Shaped lo mid) (hs : second.Shaped mid hi)
    (hrow : ∀ s, nfa.graph.row s = first.chainRow second s) :
    Assembled [first, second] nfa where
  shaped := hf.shaped_pair hs
  apart := hf.apart_pair hs
  row s := by
    by_cases hfs : first.finish = s
    · subst hfs
      refine Or.inr ⟨[second.start], List.nodup_singleton _, ?_, ?_⟩
      · simp [hrow, chainRow, silentRow, hf.row_finish,
          hs.row_eq_nil (hf.apart hs hf.finish_owned)]
      · have hstart : ¬ first.Owns second.start := fun h => hf.apart hs h hs.start_owned
        simp [hstart]
    · refine Or.inl ?_
      by_cases h : first.Owns s
      · exact ⟨first, by simp,
          by simp [hrow, chainRow, silentRow, hfs, hs.row_eq_nil (hf.apart hs h)]⟩
      · exact ⟨second, by simp, by simp [hrow, chainRow, silentRow, hfs, hf.row_eq_nil h]⟩

/-- The two states of a frame around two automata are new. -/
theorem not_owns_frame_pair
    (hl : left.Shaped lo mid) (hr : right.Shaped mid hi) :
    ∀ part ∈ [left, right], ¬ part.Owns hi ∧ ¬ part.Owns (hi + 1) := by
  have hmid := (hr.owns_iff _).mp hr.start_owned
  intro part hpart
  rw [List.mem_pair] at hpart
  rcases hpart with rfl | rfl
  · rw [hl.owns_iff, hl.owns_iff]
    constructor <;> lia
  · rw [hr.owns_iff, hr.owns_iff]
    constructor <;> lia

theorem assembled_branch
    (hl : left.Shaped lo mid) (hr : right.Shaped mid hi)
    (hrow : ∀ s, nfa.graph.row s = left.branchRow right hi s) :
    Assembled [left, right] nfa where
  shaped := hl.shaped_pair hr
  apart := hl.apart_pair hr
  row s := by
    obtain ⟨hnl, hnl'⟩ := hl.not_owns_frame_pair hr left (by simp)
    obtain ⟨hnr, hnr'⟩ := hl.not_owns_frame_pair hr right (by simp)
    have hlf : left.finish ≠ hi := fun h => hnl (h ▸ hl.finish_owned)
    have hrf : right.finish ≠ hi := fun h => hnr (h ▸ hr.finish_owned)
    have hfinishes : right.finish ≠ left.finish := fun h =>
      hl.apart hr hl.finish_owned (h ▸ hr.finish_owned)
    by_cases h₁ : hi = s
    · subst h₁
      refine Or.inr ⟨[left.start, right.start], ?_, ?_, ?_⟩
      · rw [List.nodup_cons, List.mem_singleton]
        exact ⟨fun h => hl.apart hr hl.start_owned (h ▸ hr.start_owned), List.nodup_singleton _⟩
      · simp [hrow, branchRow, silentRow, hl.row_eq_nil hnl, hr.row_eq_nil hnr, hlf, hrf]
      · have h₁ : ¬ right.Owns left.start := hl.apart hr hl.start_owned
        have h₂ : ¬ left.Owns right.start := fun h => hl.apart hr h hr.start_owned
        simp [h₁, h₂]
    · by_cases h₂ : left.finish = s
      · subst h₂
        refine Or.inr ⟨[hi + 1], List.nodup_singleton _, ?_, by simp [hnl', hnr']⟩
        simp [hrow, branchRow, silentRow, hl.row_finish,
          hr.row_eq_nil (hl.apart hr hl.finish_owned), hlf.symm, hfinishes]
      · by_cases h₃ : right.finish = s
        · subst h₃
          have hn : ¬ left.Owns right.finish := fun h => hl.apart hr h hr.finish_owned
          refine Or.inr ⟨[hi + 1], List.nodup_singleton _, ?_, by simp [hnl', hnr']⟩
          simp [hrow, branchRow, silentRow, hr.row_finish, hl.row_eq_nil hn, hrf.symm,
            hfinishes.symm]
        · refine Or.inl ?_
          by_cases h : left.Owns s
          · exact ⟨left, by simp,
              by simp [hrow, branchRow, silentRow, h₁, h₂, h₃, hr.row_eq_nil (hl.apart hr h)]⟩
          · exact ⟨right, by simp,
              by simp [hrow, branchRow, silentRow, h₁, h₂, h₃, hl.row_eq_nil h]⟩

/-- The two states of a frame are new. -/
theorem not_owns_frame
    (hb : body.Shaped lo hi) : ¬ body.Owns hi ∧ ¬ body.Owns (hi + 1) := by
  rw [hb.owns_iff, hb.owns_iff]
  constructor <;> lia

theorem assembled_wrap
    {skip again : Bool} (hb : body.Shaped lo hi)
    (hrow : ∀ s, nfa.graph.row s = body.wrapRow hi skip again s) :
    Assembled [body] nfa where
  shaped := by
    simp only [List.mem_singleton, forall_eq]
    exact ⟨lo, hi, hb⟩
  apart := by
    intro part hpart other hother s _ _
    rw [List.mem_singleton] at hpart hother
    rw [hpart, hother]
  row s := by
    obtain ⟨hn, hn'⟩ := hb.not_owns_frame
    have hs : body.start ≠ hi + 1 := fun h => hn' (h ▸ hb.start_owned)
    have hf : body.finish ≠ hi := fun h => hn (h ▸ hb.finish_owned)
    by_cases h₁ : hi = s
    · subst h₁
      refine Or.inr ⟨body.start :: if skip then [hi + 1] else [], ?_, ?_, ?_⟩
      · cases skip <;> simp [hs]
      · cases skip <;> cases again <;> simp [hrow, wrapRow, silentRow, hb.row_eq_nil hn, hf]
      · cases skip <;> simp [hn']
    · by_cases h₂ : body.finish = s
      · subst h₂
        refine Or.inr ⟨(hi + 1) :: if again then [body.start] else [], ?_, ?_, ?_⟩
        · cases again <;> simp [hs.symm]
        · cases skip <;> cases again <;> simp [hrow, wrapRow, silentRow, hb.row_finish, hf.symm]
        · cases again <;> simp [hn']
      · exact Or.inl ⟨body, by simp,
          by cases skip <;> cases again <;> simp [hrow, wrapRow, silentRow, h₁, h₂]⟩

theorem chain
    (hf : first.Shaped lo mid) (hs : second.Shaped mid hi)
    (hok : first.chain second = .ok nfa) : nfa.Shaped lo hi := by
  obtain ⟨nfa', hok', hstart, hfinish, howns, hrow⟩ :=
    exists_chain hf.finish_owned hs.start_owned
  obtain rfl := Except.ok.inj (hok.symm.trans hok')
  have harc : ∀ {s l t}, nfa.Arc s l t ↔ _ := arc_chain_iff hrow
  have hasm := hf.assembled_chain hs hrow
  refine ⟨fun s => ?_, ?_, ?_, ?_, ?_, ?_, ?_, hasm.nodup_targets, hasm.lone, hasm.entry,
    filed_chain hf.filed hs.filed hok⟩
  · have h₁ := (hf.owns_iff _).mp hf.start_owned
    have h₂ := (hs.owns_iff _).mp hs.start_owned
    rw [howns, hf.owns_iff, hs.owns_iff]
    lia
  · rw [howns, hstart]
    exact Or.inl hf.start_owned
  · rw [howns, hfinish]
    exact Or.inr hs.finish_owned
  · rw [hstart, hfinish]
    intro h
    exact hf.apart hs hf.start_owned (h ▸ hs.finish_owned)
  · intro s l t h
    rw [howns, howns]
    rcases harc.mp h with h | h | ⟨rfl, -, rfl⟩
    · exact (hf.inside h).imp Or.inl Or.inl
    · exact (hs.inside h).imp Or.inr Or.inr
    · exact ⟨Or.inl hf.finish_owned, Or.inr hs.start_owned⟩
  · intro s l h
    rw [hstart] at h
    rcases harc.mp h with h | h | ⟨-, -, h⟩
    · exact hf.no_arc_into_start h
    · exact hf.apart hs hf.start_owned (hs.inside h).2
    · exact hf.apart hs hf.start_owned (h ▸ hs.start_owned)
  · intro l t h
    rw [hfinish] at h
    rcases harc.mp h with h | h | ⟨h, -, -⟩
    · exact hf.apart hs (hf.inside h).1 hs.finish_owned
    · exact hs.no_arc_from_finish h
    · exact hf.apart hs hf.finish_owned (h ▸ hs.finish_owned)

theorem branch
    (hl : left.Shaped lo mid) (hr : right.Shaped mid hi)
    (hok : left.branch right hi = .ok nfa) : nfa.Shaped lo (hi + 2) := by
  obtain ⟨nfa', hok', hstart, hfinish, howns, hrow⟩ :=
    exists_branch hl.start_owned hl.finish_owned hr.start_owned hr.finish_owned hi
  obtain rfl := Except.ok.inj (hok.symm.trans hok')
  have harc : ∀ {s l t}, nfa.Arc s l t ↔ _ := arc_branch_iff hrow
  have hasm := hl.assembled_branch hr hrow
  obtain ⟨hnl, hnl'⟩ := hl.not_owns_frame_pair hr left (by simp)
  obtain ⟨hnr, hnr'⟩ := hl.not_owns_frame_pair hr right (by simp)
  refine ⟨fun s => ?_, ?_, ?_, ?_, ?_, ?_, ?_, hasm.nodup_targets, hasm.lone, hasm.entry,
    filed_branch hl.filed hr.filed hok⟩
  · have h₁ := (hl.owns_iff _).mp hl.start_owned
    have h₂ := (hr.owns_iff _).mp hr.start_owned
    rw [howns, hl.owns_iff, hr.owns_iff]
    lia
  · rw [howns, hstart]
    exact Or.inr (Or.inr (Or.inl rfl))
  · rw [howns, hfinish]
    exact Or.inr (Or.inr (Or.inr rfl))
  · lia
  · intro s l t h
    rw [howns, howns]
    rcases harc.mp h with h | h | ⟨-, ⟨rfl, rfl | rfl⟩ | ⟨rfl | rfl, rfl⟩⟩
    · exact (hl.inside h).imp Or.inl Or.inl
    · exact (hr.inside h).imp (Or.inr ∘ Or.inl) (Or.inr ∘ Or.inl)
    · exact ⟨Or.inr (Or.inr (Or.inl rfl)), Or.inl hl.start_owned⟩
    · exact ⟨Or.inr (Or.inr (Or.inl rfl)), Or.inr (Or.inl hr.start_owned)⟩
    · exact ⟨Or.inl hl.finish_owned, Or.inr (Or.inr (Or.inr rfl))⟩
    · exact ⟨Or.inr (Or.inl hr.finish_owned), Or.inr (Or.inr (Or.inr rfl))⟩
  · intro s l h
    rw [hstart] at h
    rcases harc.mp h with h | h | ⟨-, ⟨-, h | h⟩ | ⟨-, h⟩⟩
    · exact hnl (hl.inside h).2
    · exact hnr (hr.inside h).2
    · exact hnl (h ▸ hl.start_owned)
    · exact hnr (h ▸ hr.start_owned)
    · lia
  · intro l t h
    rw [hfinish] at h
    rcases harc.mp h with h | h | ⟨-, ⟨h, -⟩ | ⟨h | h, -⟩⟩
    · exact hnl' (hl.inside h).1
    · exact hnr' (hr.inside h).1
    · lia
    · exact hnl' (h ▸ hl.finish_owned)
    · exact hnr' (h ▸ hr.finish_owned)

theorem wrap
    {skip again : Bool} (hb : body.Shaped lo hi)
    (hok : body.wrap hi skip again = .ok nfa) : nfa.Shaped lo (hi + 2) := by
  obtain ⟨nfa', hok', hstart, hfinish, howns, hrow⟩ :=
    exists_wrap hb.start_owned hb.finish_owned hi skip again
  obtain rfl := Except.ok.inj (hok.symm.trans hok')
  have harc : ∀ {s l t}, nfa.Arc s l t ↔ _ := arc_wrap_iff hrow
  have hasm := hb.assembled_wrap hrow
  obtain ⟨hn, hn'⟩ := hb.not_owns_frame
  refine ⟨fun s => ?_, ?_, ?_, ?_, ?_, ?_, ?_, hasm.nodup_targets, hasm.lone, hasm.entry,
    filed_wrap hb.filed hok⟩
  · have h₁ := (hb.owns_iff _).mp hb.start_owned
    rw [howns, hb.owns_iff]
    lia
  · rw [howns, hstart]
    exact Or.inr (Or.inl rfl)
  · rw [howns, hfinish]
    exact Or.inr (Or.inr rfl)
  · lia
  · intro s l t h
    rw [howns, howns]
    rcases harc.mp h with h | ⟨-, ⟨rfl, rfl | ⟨-, rfl⟩⟩ | ⟨rfl, rfl | ⟨-, rfl⟩⟩⟩
    · exact (hb.inside h).imp Or.inl Or.inl
    · exact ⟨Or.inr (Or.inl rfl), Or.inl hb.start_owned⟩
    · exact ⟨Or.inr (Or.inl rfl), Or.inr (Or.inr rfl)⟩
    · exact ⟨Or.inl hb.finish_owned, Or.inr (Or.inr rfl)⟩
    · exact ⟨Or.inl hb.finish_owned, Or.inl hb.start_owned⟩
  · intro s l h
    rw [hstart] at h
    rcases harc.mp h with h | ⟨-, ⟨-, h | ⟨-, h⟩⟩ | ⟨-, h | ⟨-, h⟩⟩⟩
    · exact hn (hb.inside h).2
    · exact hn (h ▸ hb.start_owned)
    · lia
    · lia
    · exact hn (h ▸ hb.start_owned)
  · intro l t h
    rw [hfinish] at h
    rcases harc.mp h with h | ⟨-, ⟨h, -⟩ | ⟨h, -⟩⟩
    · exact hn' (hb.inside h).1
    · lia
    · exact hn' (h ▸ hb.finish_owned)

end Shaped

/-- Every automaton that the construction makes is shaped like this. -/
theorem Fragment.shaped
    {lo hi : StateId} {nfa : Nfa} (h : Fragment lo hi nfa) : nfa.Shaped lo hi := by
  induction h with
  | atom hok =>
      exact .atom hok
  | chain _ _ hok ihf ihs =>
      exact .chain ihf ihs hok
  | branch _ _ hok ihl ihr =>
      exact .branch ihl ihr hok
  | wrap _ hok ihb =>
      exact .wrap ihb hok

theorem Fragment.start_owned
    {lo hi : StateId} {nfa : Nfa} (h : Fragment lo hi nfa) : nfa.Owns nfa.start :=
  h.shaped.start_owned

theorem Fragment.finish_owned
    {lo hi : StateId} {nfa : Nfa} (h : Fragment lo hi nfa) : nfa.Owns nfa.finish :=
  h.shaped.finish_owned

section Combinators

variable {lo mid hi next : StateId} {nfa first second left right body : Nfa}

/-- What an atom is. -/
theorem atom_eq_ok {label : Label} (hok : Nfa.atom label next = .ok nfa) :
    nfa.start = next ∧ nfa.finish = next + 1 ∧ (∀ s, nfa.Owns s ↔ s = next ∨ s = next + 1) ∧
      ∀ {s l t}, nfa.Arc s l t ↔ s = next ∧ l = label ∧ t = next + 1 := by
  obtain ⟨nfa', hok', hstart, hfinish, howns, hrow⟩ := exists_atom label next
  obtain rfl := Except.ok.inj (hok.symm.trans hok')
  exact ⟨hstart, hfinish, howns, arc_atom_iff hrow⟩

/-- What a chain of two automata of this shape is. -/
theorem Shaped.chain_eq_ok (hf : first.Shaped lo mid) (hs : second.Shaped mid hi)
    (hok : first.chain second = .ok nfa) :
    nfa.start = first.start ∧ nfa.finish = second.finish ∧
      (∀ s, nfa.Owns s ↔ first.Owns s ∨ second.Owns s) ∧
      ∀ {s l t}, nfa.Arc s l t ↔ first.Arc s l t ∨ second.Arc s l t ∨
        (s = first.finish ∧ l = .epsilon ∧ t = second.start) := by
  obtain ⟨nfa', hok', hstart, hfinish, howns, hrow⟩ :=
    exists_chain hf.finish_owned hs.start_owned
  obtain rfl := Except.ok.inj (hok.symm.trans hok')
  exact ⟨hstart, hfinish, howns, arc_chain_iff hrow⟩

/-- What two automata side by side are. -/
theorem Shaped.branch_eq_ok (hl : left.Shaped lo mid) (hr : right.Shaped mid hi)
    (hok : left.branch right next = .ok nfa) :
    nfa.start = next ∧ nfa.finish = next + 1 ∧
      (∀ s, nfa.Owns s ↔ left.Owns s ∨ right.Owns s ∨ s = next ∨ s = next + 1) ∧
      ∀ {s l t}, nfa.Arc s l t ↔ left.Arc s l t ∨ right.Arc s l t ∨
        l = .epsilon ∧ (s = next ∧ (t = left.start ∨ t = right.start) ∨
          (s = left.finish ∨ s = right.finish) ∧ t = next + 1) := by
  obtain ⟨nfa', hok', hstart, hfinish, howns, hrow⟩ :=
    exists_branch hl.start_owned hl.finish_owned hr.start_owned hr.finish_owned next
  obtain rfl := Except.ok.inj (hok.symm.trans hok')
  exact ⟨hstart, hfinish, howns, arc_branch_iff hrow⟩

/-- What an automaton in a frame is. -/
theorem Shaped.wrap_eq_ok {skip again : Bool} (hb : body.Shaped lo hi)
    (hok : body.wrap next skip again = .ok nfa) :
    nfa.start = next ∧ nfa.finish = next + 1 ∧
      (∀ s, nfa.Owns s ↔ body.Owns s ∨ s = next ∨ s = next + 1) ∧
      ∀ {s l t}, nfa.Arc s l t ↔ body.Arc s l t ∨
        l = .epsilon ∧ (s = next ∧ (t = body.start ∨ skip = true ∧ t = next + 1) ∨
          s = body.finish ∧ (t = next + 1 ∨ again = true ∧ t = body.start)) := by
  obtain ⟨nfa', hok', hstart, hfinish, howns, hrow⟩ :=
    exists_wrap hb.start_owned hb.finish_owned next skip again
  obtain rfl := Except.ok.inj (hok.symm.trans hok')
  exact ⟨hstart, hfinish, howns, arc_wrap_iff hrow⟩

end Combinators

end Nfa

end Backtracking
