import Backtracking.Proofs.Composition
import Backtracking.Proofs.Factorization

/-!
# Nested repetitions

A repetition of a repetition is vulnerable whatever its body is, as long as the body has no
anchors and consumes something.

**Two ways back.**  From the finish of the body two silent ways lead back to its start: the edge
of the inner repetition, and the way out of its frame and along the edge of the outer one.  Both
are part of a route only if the body is left and entered again along different states, so two
words of the body are needed that are severed (`Nfa.Severs`).

**Severed words.**  Every automaton of the construction that consumes something has two such
words (`Nfa.Fragment.exists_severs`).  In a chain whose parts both consume something one word
ends in the second part and the other one begins in the first; in all other cases the words of
one part are taken, and what is around it is passed silently.

**Results.**
* `Nfa.Fragment.exists_severs`: the two words.
* `Nfa.Repeats.pumps_of_severs`: the two ways back.
* `Compiler.check_nested_repetition`: every tree with a nested repetition is vulnerable.
-/

namespace Backtracking
namespace Nfa

variable {nfa part first second left right body mid : Nfa} {lo hi next bound : StateId}
variable {s q : StateId} {ts pre post : List Transition} {x y : List Char}
variable {behind before : List StateId}

/-- Some edge consumes a character. -/
def Reads (nfa : Nfa) : Prop :=
  ∃ s a t, nfa.Arc s (.char a) t

theorem Walk.not_consumes_of_not_reads (h : nfa.Walk s ts q) (hno : ¬ nfa.Reads) :
    ∀ t ∈ ts, t.consumes = false := by
  intro t ht
  by_contra hc
  obtain ⟨a, ha⟩ := label_eq_char_of_consumes (Bool.not_eq_false _ ▸ hc)
  exact hno ⟨t.source, a, t.target, ha ▸ h.arc t ht⟩

/-- The states of a walk are the sources of its edges and its end. -/
theorem Walk.states_eq (h : nfa.Walk s ts q) :
    s :: ts.map Transition.target = ts.map Transition.source ++ [q] := by
  induction h with
  | nil =>
      rfl
  | cons _ _ ih =>
      rw [List.map_cons, ih, List.map_cons, List.cons_append]

section Words

theorem LeavesThrough.owns (hn : nfa.Shaped lo hi) (h : nfa.LeavesThrough x behind) :
    ∀ z ∈ behind, nfa.Owns z := by
  obtain ⟨a, e, trailing, hwalk, -, -, -, rfl⟩ := h
  have harc := (List.forall_mem_append.mp hwalk.arc).2
  have howns : ∀ t ∈ e :: trailing, nfa.Owns t.target := fun t ht => (hn.inside (harc t ht)).2
  rw [← List.map_cons]
  exact List.forall_mem_map.mpr howns

theorem EntersThrough.owns (hn : nfa.Shaped lo hi) (h : nfa.EntersThrough y before) :
    ∀ z ∈ before, nfa.Owns z := by
  obtain ⟨leading, f, b, hwalk, -, -, -, rfl⟩ := h
  have harc := (List.forall_mem_append.mp hwalk.arc).1
  exact List.forall_mem_cons.mpr ⟨hn.start_owned,
    List.forall_mem_map.mpr fun t ht => (hn.inside (harc t ht)).2⟩

/-- An edge that consumes something is on a walk from the start to the finish. -/
theorem Trim.exists_walk_of_reads (htrim : nfa.Trim) (hn : nfa.Shaped lo hi)
    (hreads : nfa.Reads) :
    ∃ ts, nfa.Walk nfa.start ts nfa.finish ∧ ∃ t ∈ ts, t.consumes = true := by
  obtain ⟨s, a, t, harc⟩ := hreads
  obtain ⟨hs, ht⟩ := hn.inside harc
  obtain ⟨us, hus⟩ := exists_walk_of_reaches (htrim s hs).1
  obtain ⟨vs, hvs⟩ := exists_walk_of_reaches (htrim t ht).2
  exact ⟨us ++ ⟨s, .char a, t⟩ :: vs, hus.append (walk_cons_iff.mpr ⟨rfl, harc, hvs⟩), _,
    List.mem_append_right _ List.mem_cons_self, rfl⟩

theorem Trim.exists_leavesThrough (htrim : nfa.Trim) (hn : nfa.Shaped lo hi)
    (hreads : nfa.Reads) : ∃ x behind, nfa.LeavesThrough x behind := by
  obtain ⟨ts, hts, hcons⟩ := htrim.exists_walk_of_reads hn hreads
  obtain ⟨a, e, trailing, rfl, he, htrailing⟩ := exists_last_split hcons
  exact ⟨_, _, a, e, trailing, hts, rfl, he, htrailing, rfl⟩

theorem Trim.exists_entersThrough (htrim : nfa.Trim) (hn : nfa.Shaped lo hi)
    (hreads : nfa.Reads) : ∃ y before, nfa.EntersThrough y before := by
  obtain ⟨ts, hts, hcons⟩ := htrim.exists_walk_of_reads hn hreads
  obtain ⟨leading, f, b, rfl, hleading, hf⟩ := exists_first_split hcons
  exact ⟨_, _, leading, f, b, hts, rfl, hleading, hf, rfl⟩

end Words

section Parts

variable (harc : ∀ {s l t}, part.Arc s l t → nfa.Arc s l t)
  (hpre : nfa.Walk nfa.start pre part.start) (hpost : nfa.Walk part.finish post nfa.finish)

include harc hpre hpost

/-- A part that is left silently is left along its own states and those behind it. -/
theorem LeavesThrough.of_part (hsilent : ∀ t ∈ post, t.consumes = false)
    (h : part.LeavesThrough x behind) :
    nfa.LeavesThrough (consumedWord pre ++ x) (behind ++ post.map Transition.target) := by
  obtain ⟨a, e, trailing, hwalk, rfl, he, htrailing, rfl⟩ := h
  refine ⟨pre ++ a, e, trailing ++ post, ?_, ?_, he,
    List.forall_mem_append.mpr ⟨htrailing, hsilent⟩, by simp⟩
  · simpa using (hpre.append (hwalk.of_arc_imp harc)).append hpost
  · rw [← consumedWord_append, ← List.cons_append, ← List.append_assoc,
      consumedWord_append_of_not_consumes _ hsilent, List.append_assoc]

/-- A part that is come to silently is entered along the states before it and its own. -/
theorem EntersThrough.of_part (hsilent : ∀ t ∈ pre, t.consumes = false)
    (h : part.EntersThrough y before) :
    nfa.EntersThrough (y ++ consumedWord post) (pre.map Transition.source ++ before) := by
  obtain ⟨leading, f, b, hwalk, rfl, hleading, hf, rfl⟩ := h
  refine ⟨pre ++ leading, f, b ++ post, ?_, ?_,
    List.forall_mem_append.mpr ⟨hsilent, hleading⟩, hf, ?_⟩
  · simpa using (hpre.append (hwalk.of_arc_imp harc)).append hpost
  · rw [← consumedWord_append, List.append_assoc pre,
      consumedWord_append_of_not_consumes_left hsilent, List.append_assoc leading,
      List.cons_append]
  · rw [List.map_append, ← List.cons_append, hpre.states_eq, List.append_assoc,
      List.singleton_append]

/-- The severed words of a part are severed in the whole if what is around the part is passed
silently and along other states. -/
theorem Severs.of_part (hp : part.Shaped lo hi)
    (hpreSilent : ∀ t ∈ pre, t.consumes = false) (hpostSilent : ∀ t ∈ post, t.consumes = false)
    (hsource : ∀ t ∈ pre, ¬ part.Owns t.source) (htarget : ∀ t ∈ post, ¬ part.Owns t.target)
    (hapart : ∀ t ∈ pre, ∀ u ∈ post, u.target ≠ t.source) (h : part.Severs x y) :
    nfa.Severs x y := by
  obtain ⟨behind, before, hleaves, henters, hdisjoint⟩ := h
  refine ⟨behind ++ post.map Transition.target, pre.map Transition.source ++ before, ?_, ?_, ?_⟩
  · have h := hleaves.of_part harc hpre hpost hpostSilent
    rwa [(consumedWord_eq_nil_iff pre).mpr hpreSilent, List.nil_append] at h
  · have h := henters.of_part harc hpre hpost hpreSilent
    rwa [(consumedWord_eq_nil_iff post).mpr hpostSilent, List.append_nil] at h
  · intro z hz hz'
    rcases List.mem_append.mp hz with hz | hz <;> rcases List.mem_append.mp hz' with hz' | hz'
    · obtain ⟨t, ht, rfl⟩ := List.mem_map.mp hz'
      exact hsource t ht (hleaves.owns hp _ hz)
    · exact hdisjoint hz hz'
    · obtain ⟨u, hu, rfl⟩ := List.mem_map.mp hz
      obtain ⟨t, ht, heq⟩ := List.mem_map.mp hz'
      exact hapart t ht u hu heq.symm
    · obtain ⟨u, hu, rfl⟩ := List.mem_map.mp hz
      exact htarget u hu (henters.owns hp _ hz')

end Parts

/-- The word of one edge is severed from itself. -/
theorem exists_severs_atom {label : Label} (hok : atom label next = .ok nfa)
    (hreads : nfa.Reads) : ∃ x y, nfa.Severs x y := by
  obtain ⟨hstart, hfinish, -, harc⟩ := atom_eq_ok hok
  obtain ⟨s, a, t, hchar⟩ := hreads
  obtain ⟨rfl, -, rfl⟩ := harc.mp hchar
  have hwalk : nfa.Walk nfa.start [⟨s, .char a, s + 1⟩] nfa.finish :=
    walk_singleton_iff.mpr ⟨hstart, hchar, hfinish⟩
  refine ⟨_, _, [s + 1], [nfa.start], ⟨[], _, [], hwalk, rfl, rfl, by simp, rfl⟩,
    ⟨[], _, [], hwalk, rfl, by simp, rfl, rfl⟩, ?_⟩
  rw [hstart]
  simp

/-- A walk through the first part of a chain comes to the second part, and a walk through the
second part goes on to the finish. -/
theorem Trim.chain_walks (hft : first.Trim) (hst : second.Trim)
    (hf : first.Shaped lo bound) (hs : second.Shaped bound hi)
    (hok : first.chain second = .ok nfa) :
    (∃ pre, nfa.Walk nfa.start pre second.start ∧ (∀ t ∈ pre, first.Owns t.source) ∧
      (¬ first.Reads → ∀ t ∈ pre, t.consumes = false)) ∧
    (∃ post, nfa.Walk first.finish post nfa.finish ∧ (∀ t ∈ post, second.Owns t.target) ∧
      (¬ second.Reads → ∀ t ∈ post, t.consumes = false)) := by
  obtain ⟨hstart, hfinish, -, harc⟩ := hf.chain_eq_ok hs hok
  have hjoin : nfa.Arc first.finish .epsilon second.start :=
    harc.mpr (Or.inr (Or.inr ⟨rfl, rfl, rfl⟩))
  obtain ⟨us, hus⟩ := exists_walk_of_reaches (hft _ hf.finish_owned).1
  obtain ⟨vs, hvs⟩ := exists_walk_of_reaches (hst _ hs.start_owned).2
  constructor
  · refine ⟨us ++ [⟨first.finish, .epsilon, second.start⟩], ?_, ?_, fun hno => ?_⟩
    · rw [hstart]
      exact (hus.of_arc_imp fun h => harc.mpr (Or.inl h)).append
        (walk_singleton_iff.mpr ⟨rfl, hjoin, rfl⟩)
    · refine List.forall_mem_append.mpr ⟨fun t ht => (hf.inside (hus.arc t ht)).1, ?_⟩
      simpa using hf.finish_owned
    · exact List.forall_mem_append.mpr
        ⟨hus.not_consumes_of_not_reads hno, List.forall_mem_singleton.mpr rfl⟩
  · refine ⟨⟨first.finish, .epsilon, second.start⟩ :: vs, ?_, ?_, fun hno => ?_⟩
    · rw [hfinish]
      exact walk_cons_iff.mpr ⟨rfl, hjoin, hvs.of_arc_imp fun h => harc.mpr (Or.inr (Or.inl h))⟩
    · exact List.forall_mem_cons.mpr ⟨hs.start_owned, fun t ht => (hs.inside (hvs.arc t ht)).2⟩
    · exact List.forall_mem_cons.mpr ⟨rfl, hvs.not_consumes_of_not_reads hno⟩

/-- If both parts of a chain consume something, the first word ends in the second part and the
second word begins in the first part. -/
theorem exists_severs_chain (hft : first.Trim) (hst : second.Trim)
    (hf : first.Shaped lo bound) (hs : second.Shaped bound hi)
    (hok : first.chain second = .ok nfa)
    (ihf : first.Reads → ∃ x y, first.Severs x y) (ihs : second.Reads → ∃ x y, second.Severs x y)
    (hreads : nfa.Reads) : ∃ x y, nfa.Severs x y := by
  obtain ⟨hstart, hfinish, -, harc⟩ := hf.chain_eq_ok hs hok
  have hfirst : ∀ {s l t}, first.Arc s l t → nfa.Arc s l t := fun h => harc.mpr (Or.inl h)
  have hsecond : ∀ {s l t}, second.Arc s l t → nfa.Arc s l t :=
    fun h => harc.mpr (Or.inr (Or.inl h))
  obtain ⟨⟨pre, hpre, hsource, hpreSilent⟩, post, hpost, htarget, hpostSilent⟩ :=
    hft.chain_walks hst hf hs hok
  have hin : nfa.Walk nfa.start [] first.start := walk_nil_iff.mpr hstart
  have hout : nfa.Walk second.finish [] nfa.finish := walk_nil_iff.mpr hfinish.symm
  by_cases hrf : first.Reads
  · by_cases hrs : second.Reads
    · obtain ⟨x, behind, hx⟩ := hst.exists_leavesThrough hs hrs
      obtain ⟨y, before, hy⟩ := hft.exists_entersThrough hf hrf
      refine ⟨_, _, _, _, hx.of_part hsecond hpre hout (by simp),
        hy.of_part hfirst hin hpost (by simp), fun z hz hz' => ?_⟩
      rw [List.map_nil, List.append_nil] at hz
      exact hf.apart hs (hy.owns hf z hz') (hx.owns hs z hz)
    · -- the second part is passed silently
      obtain ⟨x, y, h⟩ := ihf hrf
      exact ⟨x, y, h.of_part hfirst hin hpost hf (by simp) (hpostSilent hrs) (by simp)
        (fun t ht howned => hf.apart hs howned (htarget t ht)) (by simp)⟩
  · -- the first part is passed silently
    have hrs : second.Reads := by
      obtain ⟨s, a, t, hchar⟩ := hreads
      rcases harc.mp hchar with h | h | ⟨-, hno, -⟩
      · exact absurd ⟨s, a, t, h⟩ hrf
      · exact ⟨s, a, t, h⟩
      · cases hno
    obtain ⟨x, y, h⟩ := ihs hrs
    exact ⟨x, y, h.of_part hsecond hpre hout hs (hpreSilent hrf) (by simp)
      (fun t ht => hf.apart hs (hsource t ht)) (by simp) (by simp)⟩

/-- The severed words of a part are severed in a frame around it. -/
theorem Severs.of_frame (hstart : nfa.start = next) (hfinish : nfa.finish = next + 1)
    (harc : ∀ {s l t}, part.Arc s l t → nfa.Arc s l t) (hp : part.Shaped lo hi)
    (hin : nfa.Arc next .epsilon part.start) (hout : nfa.Arc part.finish .epsilon (next + 1))
    (hnew : ¬ part.Owns next ∧ ¬ part.Owns (next + 1)) (h : part.Severs x y) :
    nfa.Severs x y := by
  have hpre : nfa.Walk nfa.start [⟨next, .epsilon, part.start⟩] part.start :=
    walk_singleton_iff.mpr ⟨hstart, hin, rfl⟩
  have hpost : nfa.Walk part.finish [⟨part.finish, .epsilon, next + 1⟩] nfa.finish :=
    walk_singleton_iff.mpr ⟨rfl, hout, hfinish⟩
  refine h.of_part harc hpre hpost hp ?_ ?_ ?_ ?_ ?_
  · exact List.forall_mem_singleton.mpr rfl
  · exact List.forall_mem_singleton.mpr rfl
  · exact List.forall_mem_singleton.mpr hnew.1
  · exact List.forall_mem_singleton.mpr hnew.2
  · exact List.forall_mem_singleton.mpr (List.forall_mem_singleton.mpr (Nat.succ_ne_self next))

theorem exists_severs_branch (hl : left.Shaped lo bound) (hr : right.Shaped bound hi)
    (hok : left.branch right hi = .ok nfa)
    (ihl : left.Reads → ∃ x y, left.Severs x y) (ihr : right.Reads → ∃ x y, right.Severs x y)
    (hreads : nfa.Reads) : ∃ x y, nfa.Severs x y := by
  obtain ⟨hstart, hfinish, -, harc⟩ := hl.branch_eq_ok hr hok
  have hnew := hl.not_owns_frame_pair hr
  have hsilent : ∀ {s t}, (s = hi ∧ (t = left.start ∨ t = right.start) ∨
      (s = left.finish ∨ s = right.finish) ∧ t = hi + 1) → nfa.Arc s .epsilon t :=
    fun h => harc.mpr (Or.inr (Or.inr ⟨rfl, h⟩))
  obtain ⟨s, a, t, hchar⟩ := hreads
  rcases harc.mp hchar with h | h | ⟨hno, -⟩
  · obtain ⟨x, y, hsevers⟩ := ihl ⟨s, a, t, h⟩
    exact ⟨x, y, hsevers.of_frame hstart hfinish (fun h => harc.mpr (Or.inl h)) hl
      (hsilent (Or.inl ⟨rfl, Or.inl rfl⟩)) (hsilent (Or.inr ⟨Or.inl rfl, rfl⟩))
      (hnew left (by simp))⟩
  · obtain ⟨x, y, hsevers⟩ := ihr ⟨s, a, t, h⟩
    exact ⟨x, y, hsevers.of_frame hstart hfinish (fun h => harc.mpr (Or.inr (Or.inl h))) hr
      (hsilent (Or.inl ⟨rfl, Or.inr rfl⟩)) (hsilent (Or.inr ⟨Or.inr rfl, rfl⟩))
      (hnew right (by simp))⟩
  · cases hno

theorem exists_severs_wrap {skip again : Bool} (hb : body.Shaped lo hi)
    (hok : body.wrap hi skip again = .ok nfa)
    (ihb : body.Reads → ∃ x y, body.Severs x y) (hreads : nfa.Reads) :
    ∃ x y, nfa.Severs x y := by
  obtain ⟨hstart, hfinish, -, harc⟩ := hb.wrap_eq_ok hok
  obtain ⟨s, a, t, hchar⟩ := hreads
  rcases harc.mp hchar with h | ⟨hno, -⟩
  · obtain ⟨x, y, hsevers⟩ := ihb ⟨s, a, t, h⟩
    exact ⟨x, y, hsevers.of_frame hstart hfinish (fun h => harc.mpr (Or.inl h)) hb
      (harc.mpr (Or.inr ⟨rfl, Or.inl ⟨rfl, Or.inl rfl⟩⟩))
      (harc.mpr (Or.inr ⟨rfl, Or.inr ⟨rfl, Or.inl rfl⟩⟩)) hb.not_owns_frame⟩
  · cases hno

/-- Some two words are severed in an automaton of the construction that consumes something. -/
theorem Fragment.exists_severs (h : Fragment lo hi nfa) (hreads : nfa.Reads) :
    ∃ x y, nfa.Severs x y := by
  induction h with
  | atom hok =>
      exact exists_severs_atom hok hreads
  | chain hf hs hok ihf ihs =>
      exact exists_severs_chain hf.trim hs.trim hf.shaped hs.shaped hok ihf ihs hreads
  | branch hl hr hok ihl ihr =>
      exact exists_severs_branch hl.shaped hr.shaped hok ihl ihr hreads
  | wrap hb hok ihb =>
      exact exists_severs_wrap hb.shaped hok ihb hreads

/-- The whole repeats what the body of its repetition repeats. -/
theorem Repeats.trans (h : nfa.Repeats mid) (h' : mid.Repeats body) : nfa.Repeats body where
  inner harc := h.inner (h'.inner harc)
  enter := h.enter.trans (Relation.ReflTransGen.mono (fun _ _ => h.inner) _ _ h'.enter)
  again := h.inner h'.again

/-- Two routes along one edge and a journey back double a word. -/
theorem pumps_of_routes {r r' : Route} {ρ : List Route} (hr : nfa.IsRoute q r)
    (hr' : nfa.IsRoute q r') (hedge : r'.edge = r.edge) (hne : r ≠ r')
    (hρ : nfa.Journey r.target ρ q) : nfa.Pumps := by
  have htarget : r'.target = r.target := congrArg Transition.target hedge
  have hletter : r'.letter = r.letter :=
    Label.char.inj (hr'.letter.symm.trans (hedge ▸ hr.letter))
  refine ⟨q, (r :: ρ).map Route.letter, r :: ρ, r' :: ρ, fun heq => hne (List.cons.inj heq).1,
    .cons hr hρ, .cons hr' (htarget ▸ hρ), rfl, ?_⟩
  rw [List.map_cons, List.map_cons, hletter]

/-- Out of the frame of the inner repetition, and in again by the edge of the outer one. -/
theorem Repeats.exists_route_around {skip : Bool} (h : nfa.Repeats mid)
    (hb : body.Shaped lo hi) (hok : body.wrap hi skip true = .ok mid) (hfree : nfa.Anchorless)
    {trailing leading : List Transition} {f : Transition} {p : StateId}
    (htrail : nfa.Walk q trailing body.finish) (htrailing : ∀ t ∈ trailing, t.consumes = false)
    (hhead : nfa.Walk body.start (leading ++ [f]) p)
    (hleading : ∀ t ∈ leading, t.consumes = false) (hf : f.consumes = true)
    (howns : ∀ z ∈ q :: trailing.map Transition.target, body.Owns z)
    (howns' : ∀ z ∈ body.start :: leading.map Transition.target, body.Owns z)
    (hdisjoint : List.Disjoint (q :: trailing.map Transition.target)
      (body.start :: leading.map Transition.target)) :
    ∃ r, nfa.IsRoute q r ∧ r.edge = f ∧ ⟨mid.finish, .epsilon, mid.start⟩ ∈ r.run := by
  obtain ⟨hstart, hfinish, -, harc⟩ := hb.wrap_eq_ok hok
  obtain ⟨hnew, hnew'⟩ := hb.not_owns_frame
  have hleave : nfa.Arc body.finish .epsilon mid.finish :=
    h.inner (harc.mpr (Or.inr ⟨rfl, Or.inr ⟨rfl, Or.inl hfinish⟩⟩))
  have henter : nfa.Arc mid.start .epsilon body.start :=
    h.inner (harc.mpr (Or.inr ⟨rfl, Or.inl ⟨hstart, Or.inl rfl⟩⟩))
  have hout : nfa.Walk q (trailing ++ [⟨body.finish, .epsilon, mid.finish⟩]) mid.finish :=
    htrail.append (walk_singleton_iff.mpr ⟨rfl, hleave, rfl⟩)
  have hin : nfa.Walk mid.start (⟨mid.start, .epsilon, body.start⟩ :: leading ++ [f]) p :=
    walk_cons_iff.mpr ⟨rfl, henter, hhead⟩
  have hne : mid.finish ≠ mid.start := by
    rw [hstart, hfinish]
    exact Nat.succ_ne_self hi
  have hapart : List.Disjoint ((q :: trailing.map Transition.target) ++ [mid.finish])
      (mid.start :: body.start :: leading.map Transition.target) := by
    refine List.disjoint_append_left.mpr ⟨List.disjoint_cons_right.mpr ⟨fun hz => ?_, hdisjoint⟩,
      List.singleton_disjoint.mpr fun hz => ?_⟩
    · exact hnew (hstart ▸ howns _ hz)
    · rcases List.mem_cons.mp hz with heq | hz
      · exact hne heq
      · exact hnew' (hfinish ▸ howns' _ hz)
  obtain ⟨r, hr, hedge, hback, -⟩ := h.exists_route_back hfree hout
    (List.forall_mem_append.mpr ⟨htrailing, List.forall_mem_singleton.mpr rfl⟩) hin
    (List.forall_mem_cons.mpr ⟨rfl, hleading⟩) hf (by rw [List.map_append]; exact hapart)
  exact ⟨r, hr, hedge, hback⟩

/-- Between severed words a repetition in a repetition goes back along two ways. -/
theorem Repeats.pumps_of_severs {skip : Bool} (h : nfa.Repeats mid) (hb : body.Shaped lo hi)
    (hok : body.wrap hi skip true = .ok mid) (hfree : nfa.Anchorless)
    (hsevers : body.Severs x y) : nfa.Pumps := by
  have hinner : nfa.Repeats body := h.trans (repeats_of_wrap hb hok)
  obtain ⟨behind, before, hleaves, henters, hdisjoint⟩ := hsevers
  have howns := hleaves.owns hb
  have howns' := henters.owns hb
  obtain ⟨a, e, trailing, hx, rfl, he, htrailing, rfl⟩ := hleaves
  obtain ⟨leading, f, b, hy, rfl, hleading, hf, rfl⟩ := henters
  rw [List.append_cons] at hx hy
  obtain ⟨q, ha, htrail⟩ := walk_append_iff.mp hx
  obtain ⟨p, hhead, hrest⟩ := walk_append_iff.mp hy
  obtain rfl : q = e.target := ha.target_eq
  obtain rfl : p = f.target := hhead.target_eq
  have htrail' := htrail.of_arc_imp hinner.inner
  have hhead' := hhead.of_arc_imp hinner.inner
  obtain ⟨r, hr, rfl, -, hrun⟩ :=
    hinner.exists_route_back hfree htrail' htrailing hhead' hleading hf hdisjoint
  obtain ⟨r', hr', hedge, hback⟩ :=
    h.exists_route_around hb hok hfree htrail' htrailing hhead' hleading hf howns howns' hdisjoint
  have hne : r ≠ r' := by
    rintro rfl
    -- the first route does not leave the body
    have hsource : body.Owns mid.finish := by
      rcases List.mem_append.mp (hrun hback) with ht | ht
      · exact (hb.inside (htrail.arc _ ht)).1
      · rcases List.mem_cons.mp ht with heq | ht
        · have hsame : mid.finish = body.finish := congrArg Transition.source heq
          exact hsame ▸ hb.finish_owned
        · exact (hb.inside (hhead.arc _ (List.mem_append_left _ ht))).1
    rw [(hb.wrap_eq_ok hok).2.1] at hsource
    exact hb.not_owns_frame.2 hsource
  have hreturn : nfa.Walk r.edge.target
      (b ++ ⟨body.finish, .epsilon, body.start⟩ :: (a ++ [e])) e.target :=
    (hrest.of_arc_imp hinner.inner).append
      (walk_cons_iff.mpr ⟨rfl, hinner.again, ha.of_arc_imp hinner.inner⟩)
  rw [← List.cons_append, ← List.append_assoc] at hreturn
  obtain ⟨ρ, hρ, -⟩ := hreturn.exists_journey_concat hfree he
  exact pumps_of_routes hr hr' hedge hne hρ

theorem Anchorless.wrap {skip again : Bool} (hfree : body.Anchorless) (hb : body.Shaped lo hi)
    (hok : body.wrap next skip again = .ok nfa) : nfa.Anchorless := by
  obtain ⟨-, -, -, harc⟩ := hb.wrap_eq_ok hok
  intro s l t h
  rcases harc.mp h with h | ⟨rfl, -⟩
  · exact hfree h
  · simp

end Nfa

namespace Pattern

open Nfa

variable {p r inner outer : Pattern} {lo next hi : StateId} {nfa : Nfa} {k m : Nat}

/-- Groups around a tree do not show in its automaton. -/
theorem Built.iterate_group (h : p.Built lo hi nfa) (k : Nat) :
    (group^[k] p).Built lo hi nfa := by
  induction k with
  | zero =>
      exact h
  | succ k ih =>
      rw [Function.iterate_succ_apply']
      exact .same (.group _) ih

/-- A tree that matches a word has an automaton that consumes something. -/
theorem AnchorFree.reads (hp : p.AnchorFree) (hok : p.build next = .ok (nfa, hi))
    {word : List Char} (hne : word ≠ []) (hword : p.Matches word 0 word.length) : nfa.Reads := by
  obtain ⟨ts, hts, rfl⟩ := (accepts_iff_exists_walk (hp.label_ne hok) word).mp
    ((accepts_iff_matches hok word).mpr hword)
  obtain ⟨t, ht, hcons⟩ := exists_consumes_of_consumedWord_ne_nil hne
  obtain ⟨a, ha⟩ := label_eq_char_of_consumes hcons
  exact ⟨t.source, a, t.target, ha ▸ hts.arc t ht⟩

/-- A repetition of a repetition is vulnerable, with any groups in between. -/
theorem vulnerable_of_nested (hr : r.AnchorFree) {word : List Char} (hne : word ≠ [])
    (hword : r.Matches word 0 word.length)
    (hinner : inner = .star (group^[m] r) ∨ inner = .plus (group^[m] r))
    (houter : outer = .star (group^[k] inner) ∨ outer = .plus (group^[k] inner)) :
    outer.Vulnerable := by
  obtain ⟨skip', hinner⟩ := exists_frames hinner
  obtain ⟨skip, houter⟩ := exists_frames houter
  obtain ⟨_, body, hbody⟩ := exists_built r 0
  obtain ⟨mid, hwrap', hmid⟩ := (hbody.iterate_group m).exists_frame hinner
  obtain ⟨nfa, hwrap, hnfa⟩ := (hmid.iterate_group k).exists_frame houter
  have hbfree : body.Anchorless := hr.label_ne hbody.build_eq_ok
  have hmfree : mid.Anchorless := hbfree.wrap hbody.shaped hwrap'
  have hfree : nfa.Anchorless := hmfree.wrap hmid.shaped hwrap
  obtain ⟨x, y, hsevers⟩ :=
    hbody.fragment.exists_severs (hr.reads hbody.build_eq_ok hne hword)
  rw [hnfa.vulnerable_iff]
  exact (repeats_of_wrap hmid.shaped hwrap).pumps_of_severs hbody.shaped hwrap' hfree hsevers

end Pattern

namespace Compiler

/-- Every tree in which a repetition of a repetition stands is found vulnerable, if the tree
that they repeat has no anchors and matches some word that is not empty.  Groups may stand
around that tree and between the repetitions. -/
theorem check_nested_repetition {r inner outer t : Pattern} (hr : r.AnchorFree)
    {word : List Char} (hne : word ≠ []) (hword : r.Matches word 0 word.length) {k m : Nat}
    (hinner : inner = .star (Pattern.group^[m] r) ∨ inner = .plus (Pattern.group^[m] r))
    (houter : outer = .star (Pattern.group^[k] inner) ∨ outer = .plus (Pattern.group^[k] inner))
    (ht : outer.OccursIn t) (c : Compiler) :
    ∃ nfa c', c.compileTree t = .ok (nfa, c') ∧
      ∃ w, nfa.check { maxSteps := none } = .ok (some w) := by
  obtain ⟨nfa, c', hok, hfrag⟩ := c.exists_compileTree t
  have hvulnerable := ht.vulnerable (Pattern.vulnerable_of_nested hr hne hword hinner houter)
  exact ⟨nfa, c', hok, hfrag.exists_check_iff_pumps.mpr
    ((built_of_compileTree hok).vulnerable_iff.mp hvulnerable)⟩

/-- `^x((b?c?)+)*$` is vulnerable, though a single repetition of `b?c?` is not. -/
theorem check_nested_optionals :
    ∃ nfa c', Compiler.compileTree {} (.sequence [.literal '^', .literal 'x',
        .star (.group (.plus (.group (.sequence
          [.optional (.literal 'b'), .optional (.literal 'c')])))), .literal '$']) =
        .ok (nfa, c') ∧
      ∃ w, nfa.check { maxSteps := none } = .ok (some w) := by
  have hword : (Pattern.sequence [.optional (.literal 'b'), .optional (.literal 'c')]).Matches
      ['b'] 0 1 :=
    ⟨1, .single (by simp [Pattern.Matches, Pattern.MatchesLiteral]), 1, .refl, rfl⟩
  exact check_nested_repetition (by decide) (List.cons_ne_nil _ _) hword (k := 1) (m := 1)
    (Or.inr rfl) (Or.inl rfl) (.item (by simp) .refl) {}

end Compiler

end Backtracking
