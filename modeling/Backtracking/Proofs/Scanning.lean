import Backtracking.Proofs.Construction
import Backtracking.Proofs.Printing
import Mathlib.Data.List.TakeWhile

/-!
# What is wrong with a text

Whether a text is a pattern, and what is wrong with it if it is none, can be seen without
building a tree and without descending into its groups.  A scan from left to right keeps the
offsets of the open groups and whether there is anything that a repetition could repeat.

**Scan.**  `Scan.step` says what a character does, and where a class opens it goes over the
whole class.  The first violation ends the scan; what the text leaves open is seen at its
end.

**Results.**
* `Reader.run_eq_scan`: a reader fails where and as the scan fails.
* `Scan.offset_lt_of_run`: the offset to blame lies in the text.
* `parse_eq_scan`: parsing a text fails exactly as scanning it.
-/

namespace Backtracking
namespace Pattern

/-- What a scan keeps: the offsets of the open groups, innermost first, and whether
something stands before the next character that it could repeat. -/
structure Scan where
  opened : List Nat := []
  operand : Bool := false

namespace Scan

/-- Whether a character of a class belongs to it. -/
def isMember (c : Char) : Bool :=
  c != ']' && c != '\\'

/-- The number of members of the class that opens at `offset`: what is written up to the
first `]`, where no backslash may be. -/
def classLength (offset : Nat) (behind : List Char) : Except Malformed Nat :=
  let members := behind.takeWhile isMember
  match behind.drop members.length with
  | [] => .error ⟨.unterminatedClass, offset⟩
  | '\\' :: rest => .error ⟨.escape rest.head?, offset + 1 + members.length⟩
  | _ :: _ =>
      if members.isEmpty then .error ⟨.emptyClass, offset⟩ else .ok members.length

/-- What the character at `offset` does, and how many characters behind it are done with
it. -/
def step (s : Scan) (offset : Nat) (c : Char) (behind : List Char) :
    Except Malformed (Scan × Nat) :=
  match c with
  | '(' => .ok ({ opened := offset :: s.opened, operand := false }, 0)
  | ')' =>
      match s.opened with
      | [] => .error ⟨.unbalancedGroup, offset⟩
      | _ :: opened => .ok ({ opened, operand := true }, 0)
  | '|' => .ok ({ s with operand := false }, 0)
  | '*' | '+' | '?' => if s.operand then .ok (s, 0) else .error ⟨.missingOperand, offset⟩
  | '\\' => .error ⟨.escape behind.head?, offset⟩
  | '[' => (classLength offset behind).map fun n => ({ s with operand := true }, n + 1)
  | _ => .ok ({ s with operand := true }, 0)

/-- At the end of the text no group may be open. -/
def finish (s : Scan) : Except Malformed Unit :=
  match s.opened with
  | [] => .ok ()
  | opened :: _ => .error ⟨.unbalancedGroup, opened⟩

/-- Scans the rest of a text, whose first character stands at `offset`, up to the first
violation. -/
def run (s : Scan) (offset : Nat) : List Char → Except Malformed Unit
  | [] => s.finish
  | c :: behind =>
      match s.step offset c behind with
      | .error e => .error e
      | .ok (s, done) => s.run (offset + done + 1) (behind.drop done)
termination_by text => text.length
decreasing_by
  rw [List.length_drop, List.length_cons]
  lia

variable {s s' : Scan} {offset done n : Nat} {c : Char} {behind text : List Char}
variable {e : Malformed}

theorem isMember_iff : isMember c = true ↔ c ≠ ']' ∧ c ≠ '\\' := by
  simp [isMember]

/-- What is written behind a `[`: the members of a class and what follows them. -/
theorem exists_members (behind : List Char) :
    ∃ members rest : List Char, behind = members ++ rest ∧
      (∀ c ∈ members, c ≠ ']' ∧ c ≠ '\\') ∧ ∀ c ∈ rest.head?, c = ']' ∨ c = '\\' := by
  refine ⟨behind.takeWhile isMember, behind.dropWhile isMember,
    List.takeWhile_append_dropWhile.symm,
    fun c hc => isMember_iff.mp (List.mem_takeWhile_imp hc), fun c hc => ?_⟩
  have hfirst := List.head?_dropWhile_not isMember behind
  rw [hc] at hfirst
  by_contra hne
  exact Bool.eq_false_iff.mp hfirst (isMember_iff.mpr (not_or.mp hne))

theorem takeWhile_isMember {members rest : List Char}
    (hmembers : ∀ c ∈ members, c ≠ ']' ∧ c ≠ '\\')
    (hrest : ∀ c ∈ rest.head?, c = ']' ∨ c = '\\') :
    (members ++ rest).takeWhile isMember = members := by
  have hstop : rest.takeWhile isMember = [] := by
    cases rest with
    | nil => rfl
    | cons c rest =>
        refine List.takeWhile_cons_of_neg fun hc => ?_
        exact not_or.mpr (isMember_iff.mp hc) (hrest c rfl)
  rw [List.takeWhile_append_of_pos fun c hc => isMember_iff.mpr (hmembers c hc), hstop,
    List.append_nil]

theorem offset_lt_of_classLength (h : classLength offset behind = .error e) :
    e.offset < offset + 1 + behind.length := by
  rw [classLength] at h
  split at h
  · obtain rfl := Except.error.inj h
    exact Nat.lt_add_right _ (Nat.lt_succ_self offset)
  · next rest heq =>
      obtain rfl := Except.error.inj h
      have hlen := congrArg List.length heq
      rw [List.length_drop, List.length_cons] at hlen
      change offset + 1 + _ < _
      lia
  · split at h
    · obtain rfl := Except.error.inj h
      exact Nat.lt_add_right _ (Nat.lt_succ_self offset)
    · cases h

theorem lt_length_of_classLength (h : classLength offset behind = .ok n) :
    n < behind.length := by
  rw [classLength] at h
  split at h
  · cases h
  · cases h
  · next c rest _ heq =>
      split at h
      · cases h
      · obtain rfl := Except.ok.inj h
        have hlen := congrArg List.length heq
        rw [List.length_drop, List.length_cons] at hlen
        lia

/-- What a step can do: blame the character that is scanned, go on behind it without opening a
group elsewhere, or go over a class. -/
theorem step_cases (s : Scan) (offset : Nat) (c : Char) (behind : List Char) :
    (∃ fault, s.step offset c behind = .error ⟨fault, offset⟩) ∨
      (∃ s' : Scan, s.step offset c behind = .ok (s', 0) ∧
        ∀ o ∈ s'.opened, o = offset ∨ o ∈ s.opened) ∨
      s.step offset c behind =
        (classLength offset behind).map fun n => ({ s with operand := true }, n + 1) := by
  unfold step
  split
  case h_1 =>
    exact Or.inr (Or.inl ⟨_, rfl, fun o ho => List.mem_cons.mp ho⟩)
  case h_2 =>
    split
    · exact Or.inl ⟨_, rfl⟩
    · next o opened heq =>
        exact Or.inr (Or.inl ⟨_, rfl, fun o ho => Or.inr (heq ▸ List.mem_cons_of_mem _ ho)⟩)
  case h_3 | h_9 =>
    exact Or.inr (Or.inl ⟨_, rfl, fun o ho => Or.inr ho⟩)
  case h_4 | h_5 | h_6 =>
    split
    · exact Or.inr (Or.inl ⟨_, rfl, fun o ho => Or.inr ho⟩)
    · exact Or.inl ⟨_, rfl⟩
  case h_7 =>
    exact Or.inl ⟨_, rfl⟩
  case h_8 =>
    exact Or.inr (Or.inr rfl)

/-- A violation is blamed on the character that is scanned, or it is one of a class. -/
theorem offset_lt_of_step (h : s.step offset c behind = .error e) :
    e.offset < offset + 1 + behind.length := by
  obtain ⟨fault, hstep⟩ | ⟨s', hstep, -⟩ | hstep := s.step_cases offset c behind
  · obtain rfl := Except.error.inj (h.symm.trans hstep)
    exact Nat.lt_add_right _ (Nat.lt_succ_self offset)
  · cases h.symm.trans hstep
  · rw [hstep] at h
    cases hclass : classLength offset behind with
    | error e' =>
        rw [hclass] at h
        obtain rfl := Except.error.inj h
        exact offset_lt_of_classLength hclass
    | ok n =>
        rw [hclass] at h
        cases h

/-- No more is done with than there is, and no group but one at `offset` is opened. -/
theorem step_eq_ok (h : s.step offset c behind = .ok (s', done)) :
    done ≤ behind.length ∧ ∀ o ∈ s'.opened, o = offset ∨ o ∈ s.opened := by
  obtain ⟨fault, hstep⟩ | ⟨s'', hstep, hopened⟩ | hstep := s.step_cases offset c behind
  · cases h.symm.trans hstep
  · obtain ⟨rfl, rfl⟩ := Prod.mk.inj (Except.ok.inj (h.symm.trans hstep))
    exact ⟨Nat.zero_le _, hopened⟩
  · rw [hstep] at h
    cases hclass : classLength offset behind with
    | error e' =>
        rw [hclass] at h
        cases h
    | ok n =>
        rw [hclass] at h
        obtain ⟨rfl, rfl⟩ := Prod.mk.inj (Except.ok.inj h)
        exact ⟨lt_length_of_classLength hclass, fun o ho => Or.inr ho⟩

/-- What is wrong with a text is blamed on one of its characters. -/
theorem offset_lt_of_run (hopened : ∀ o ∈ s.opened, o < offset)
    (h : s.run offset text = .error e) : e.offset < offset + text.length := by
  fun_induction Scan.run s offset text with
  | case1 s offset =>
      rw [finish] at h
      split at h
      · cases h
      · next o rest heq =>
          obtain rfl := Except.error.inj h
          exact hopened o (heq ▸ List.mem_cons_self)
  | case2 s offset c behind e' hstep =>
      obtain rfl := Except.error.inj h
      have := offset_lt_of_step hstep
      rw [List.length_cons]
      lia
  | case3 s offset c behind s' done hstep ih =>
      obtain ⟨hdone, hsub⟩ := step_eq_ok hstep
      have hbound := ih (fun o ho => ?_) h
      · rw [List.length_drop] at hbound
        rw [List.length_cons]
        lia
      · rcases hsub o ho with rfl | ho
        · lia
        · have := hopened o ho
          lia

end Scan

namespace Reader

/-- What a scan sees of a reader. -/
def scan (r : Reader) : Scan :=
  { opened := r.outer.map Prod.fst, operand := !r.draft.items.isEmpty }

variable {r r' : Reader} {d : Draft} {outer : List (Nat × Draft)} {offset opened n : Nat}
variable {c : Char} {behind text : List Char} {e : Malformed}

/-- A repetition needs an operand. -/
theorem step_scan_wrap (r : Reader) (offset : Nat) (repetition : Pattern → Pattern) :
    (if r.scan.operand then .ok (r.scan, 0) else .error ⟨.missingOperand, offset⟩) =
      (r.wrap offset repetition).map fun r => (r.scan, 0) := by
  obtain ⟨⟨branches, items⟩, outer, members⟩ := r
  cases items with
  | nil => rfl
  | cons item items => rfl

/-- Outside a class a reader and a scan do the same. -/
theorem step_scan (r : Reader) (offset : Nat) (behind : List Char) (hc : c ≠ '[') :
    r.scan.step offset c behind =
      (r.plain offset c behind.head?).map fun r => (r.scan, 0) := by
  unfold Scan.step Reader.plain
  split
  case h_2 =>
    obtain ⟨d, outer, members⟩ := r
    cases outer with
    | nil => rfl
    | cons frame outer => rfl
  case h_4 | h_5 | h_6 => exact step_scan_wrap r offset _
  case h_8 => exact absurd rfl hc
  case h_9 =>
    split
    case h_9 => rfl
    all_goals contradiction
  all_goals rfl

theorem members_of_plain (hc : c ≠ '[') {behind : Option Char}
    (h : r.plain offset c behind = .ok r') : r'.members = r.members := by
  have hwrap : ∀ repetition, r.wrap offset repetition = .ok r' → r'.members = r.members := by
    intro repetition hok
    rw [wrap] at hok
    split at hok
    · obtain rfl := Except.ok.inj hok
      rfl
    · cases hok
  unfold plain at h
  split at h
  case h_2 =>
    split at h
    · cases h
    · obtain rfl := Except.ok.inj h
      rfl
  case h_4 => exact absurd rfl hc
  case h_5 | h_6 | h_7 => exact hwrap _ h
  case h_8 => cases h
  all_goals
    obtain rfl := Except.ok.inj h
    rfl

/-- A class is read as one item, or fails as its scan does. -/
theorem run_class (d : Draft) (outer : List (Nat × Draft)) (offset : Nat) (behind : List Char) :
    Reader.run ⟨d, outer, some (offset, [])⟩ (offset + 1) behind =
      match Scan.classLength offset behind with
      | .error e => .error e
      | .ok n =>
          Reader.run ⟨d.add (oneOf (behind.take n)), outer, none⟩ (offset + (n + 1) + 1)
            (behind.drop (n + 1)) := by
  obtain ⟨members, rest, rfl, hmembers, hrest⟩ := Scan.exists_members behind
  rw [Scan.classLength, Scan.takeWhile_isMember hmembers hrest, List.drop_left,
    Draft.run_members hmembers, List.append_nil]
  match rest, hrest with
  | [], _ => rfl
  | c :: rest, hrest =>
      obtain rfl | rfl := hrest c rfl
      · by_cases hne : members = []
        · subst hne
          rfl
        · have hempty : members.isEmpty = false := by simpa using hne
          have htake : (members ++ ']' :: rest).take members.length = members := List.take_left
          have hdrop : (members ++ ']' :: rest).drop (members.length + 1) = rest := by
            rw [← List.drop_drop, List.drop_left]
            rfl
          rw [Reader.run, Draft.step_end_of_class d hne, hempty]
          change _ = Reader.run ⟨d.add (oneOf (List.take members.length _)), outer, none⟩
            (offset + (members.length + 1) + 1) (List.drop (members.length + 1) _)
          rw [htake, hdrop, ← Nat.add_assoc, Nat.add_right_comm offset 1]
          rfl
      · rfl

/-- Reading the rest of a text fails where and as scanning it fails. -/
theorem run_eq_scan (d : Draft) (outer : List (Nat × Draft)) (offset : Nat) (text : List Char) :
    (Reader.run ⟨d, outer, none⟩ offset text).map (fun _ => ()) =
      (scan ⟨d, outer, none⟩).run offset text := by
  match text with
  | [] =>
      rw [Scan.run]
      cases outer with
      | nil => rfl
      | cons frame outer => rfl
  | c :: behind =>
      rw [Scan.run]
      by_cases hc : c = '['
      · subst hc
        have hstep : (scan ⟨d, outer, none⟩).step offset '[' behind =
            (Scan.classLength offset behind).map fun n =>
              ({ opened := outer.map Prod.fst, operand := true }, n + 1) := rfl
        change (Reader.run ⟨d, outer, some (offset, [])⟩ (offset + 1) behind).map _ = _
        rw [run_class, hstep]
        cases hclass : Scan.classLength offset behind with
        | error e => rfl
        | ok n => exact run_eq_scan _ outer _ (behind.drop (n + 1))
      · rw [step_scan _ _ _ hc]
        change (Reader.plain ⟨d, outer, none⟩ offset c behind.head? >>= _).map _ = _
        cases hplain : Reader.plain ⟨d, outer, none⟩ offset c behind.head? with
        | error e => rfl
        | ok r =>
            obtain ⟨d', outer', members⟩ := r
            obtain rfl : members = none := members_of_plain hc hplain
            exact run_eq_scan d' outer' (offset + 1) behind
termination_by text.length
decreasing_by all_goals simp

end Reader

theorem map_parse (text : List Char) :
    (parse text).map (fun _ => ()) = Scan.run {} 0 text := by
  rw [parse_eq_run]
  exact Reader.run_eq_scan {} [] 0 text

/-- Parsing and scanning a text have the same faults. -/
theorem parse_eq_error_iff {text : List Char} {e : Malformed} :
    parse text = .error e ↔ Scan.run {} 0 text = .error e := by
  rw [← map_parse]
  cases parse text with
  | error e' => exact (Except.error.injEq e' e).to_iff.trans (Except.error.injEq e' e).to_iff.symm
  | ok p => exact ⟨fun h => (by cases h), fun h => (by cases h)⟩

/-- Parsing a text fails exactly as scanning it, with the same fault at the same place.  The
place is one of the text, and there is no other way in which a pattern can have no
automaton. -/
theorem parse_eq_scan (text : List Char) :
    (parse text).map (fun _ => ()) = Scan.run {} 0 text ∧
      (∀ e, parse text = .error e → e.offset < text.length) ∧
      ∀ (c : Compiler) (e : CompileError),
        c.compile text = .error e ↔ ∃ m, Scan.run {} 0 text = .error m ∧ e = .malformed m := by
  refine ⟨map_parse text, fun e he => ?_, fun c e => ?_⟩
  · have hbound := Scan.offset_lt_of_run (fun o ho => absurd ho List.not_mem_nil)
      (parse_eq_error_iff.mp he)
    rwa [Nat.zero_add] at hbound
  · simp only [← parse_eq_error_iff, Compiler.compile]
    cases parse text with
    | error m =>
        constructor
        · intro h
          exact ⟨m, rfl, (Except.error.inj h).symm⟩
        · rintro ⟨m', hm, rfl⟩
          exact congrArg (Except.error ∘ CompileError.malformed) (Except.error.inj hm)
    | ok p =>
        -- a tree always has an automaton
        obtain ⟨nfa, c', hok, -⟩ := c.exists_compileTree p
        constructor
        · intro h
          cases hok.symm.trans h
        · rintro ⟨m, hm, -⟩
          cases hm

/-- Of two faults the one that is met first counts: the backslash, and not the class that
never ends or the group around it. -/
example : parse ['(', '[', 'a', '\\'] = .error ⟨.escape none, 3⟩ :=
  (parse_eq_run _).trans rfl

end Pattern
end Backtracking
