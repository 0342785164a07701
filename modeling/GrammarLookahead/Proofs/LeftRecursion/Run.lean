import GrammarLookahead.LeftRecursion.Detection
import GrammarLookahead.Proofs.Effective
import Std.Data.ExtTreeMap.Lemmas
import Std.Data.ExtTreeSet.Lemmas

namespace GrammarLookahead

namespace Exploration

/-- The element has been visited. -/
def enter (s : Exploration) (id : ElementId) : Exploration :=
  { s with visited := s.visited.insert id }

/-- What was found takes on the cardinality around it; giving up hands nothing on. -/
def handOn (g : Grammar) (around : Cardinality) (s : Exploration)
    (answer : Option (List ElementId)) : Exploration :=
  { s with context := s.context.handOn g around (answer.getD []) }

/-- The verdict on the rule is kept. -/
def memoize (s : Exploration) (rule : RuleId) (answer : Option (List ElementId)) : Exploration :=
  { s with memo := s.memo.insert rule (.ofOpenings? answer) }

/-- The visits are those of another state. -/
def restore (s t : Exploration) : Exploration :=
  { t with visited := s.visited }

end Exploration

namespace Search

variable {g : Grammar} {s t u : Exploration} {α β : Type}

theorem run_bind_some {m : Search α} {f : α → Search β} {a : α}
    (h : m.run.run s = .ok (some a, t)) : (m >>= f).run.run s = (f a).run.run t := by
  rw [OptionT.run_bind, Option.elimM, StateT.run_bind, h, ok_bind]
  rfl

theorem run_bind_none {m : Search α} {f : α → Search β}
    (h : m.run.run s = .ok (none, t)) : (m >>= f).run.run s = .ok (none, t) := by
  rw [OptionT.run_bind, Option.elimM, StateT.run_bind, h, ok_bind]
  rfl

theorem run_failure : (failure : Search α).run.run s = .ok (none, s) := rfl

theorem run_lift {x : Except Fault α} {a : α} (h : x = .ok a) :
    (liftM x : Search α).run.run s = .ok (some a, s) := by
  subst h
  rfl

theorem run_query {q : Query α} {a : α} {o : Context} (h : q.run s.context = .ok (a, o)) :
    (liftM q : Search α).run.run s = .ok (some a, { s with context := o }) := by
  change (q.run s.context >>= fun p => pure (p.1, { s with context := p.2 })) >>= _ = _
  rw [h]
  rfl

theorem run_getThe : (getThe Exploration : Search Exploration).run.run s = .ok (some s, s) := rfl

theorem run_modifyThe {f : Exploration → Exploration} :
    (modifyThe Exploration f : Search PUnit).run.run s = .ok (some ⟨⟩, f s) := rfl

theorem run_visit_of_mem {id : ElementId} (h : id ∈ s.visited) :
    (visit id).run.run s = .ok (none, s) := by
  rw [visit, run_bind_some run_getThe, if_pos h]
  exact run_bind_none run_failure

theorem run_visit_of_not_mem {id : ElementId} (h : id ∉ s.visited) :
    (visit id).run.run s = .ok (some (), s.enter id) := by
  rw [visit, run_bind_some run_getThe, if_neg h]
  rfl

theorem run_attempt {m : Search α} {a : Option α} (h : m.run.run s = .ok (a, t)) :
    (attempt m).run.run s = .ok (some a, t) := by
  rw [attempt, OptionT.run_lift, StateT.run_bind, h]
  rfl

theorem run_forgetting {m : Search α} {a : Option α} (h : m.run.run s = .ok (a, t)) :
    (forgetting m).run.run s = .ok (a, s.restore t) := by
  rw [forgetting, run_bind_some run_getThe, run_bind_some (run_attempt h),
    run_bind_some run_modifyThe]
  rfl

theorem run_branches_nil {explore : ElementId → Search (List ElementId)} :
    (branches explore []).run.run s = .ok (some [], s) := rfl

theorem run_branches_cons {explore : ElementId → Search (List ElementId)} {id : ElementId}
    {rest : List ElementId} {a b : Option (List ElementId)}
    (ha : (explore id).run.run s = .ok (a, t))
    (hb : (branches explore rest).run.run t = .ok (b, u)) :
    (branches explore (id :: rest)).run.run s =
      .ok (a.bind fun found => b.map (found ++ ·), u) := by
  rw [branches, run_bind_some (run_attempt ha), run_bind_some (run_attempt hb)]
  cases a <;> cases b <;> rfl

theorem run_isOptional {id : ElementId} (h : g.Issued id) :
    (liftM (Query.isOptional g id) : Search Bool).run.run s =
      .ok (some (s.context.seen g id).isOptional, s) :=
  run_query (Query.run_isOptional h)

theorem run_isRepeatable {id : ElementId} (h : g.Issued id) :
    (liftM (Query.isRepeatable g id) : Search Bool).run.run s =
      .ok (some (s.context.seen g id).isRepeatable, s) :=
  run_query (Query.run_isRepeatable h)

variable {explore : ElementId → Search (List ElementId)} {id : ElementId} {rest found : List ElementId}

theorem run_scanSequence_none (h : (explore id).run.run s = .ok (none, t)) :
    (scanSequence g explore (id :: rest)).run.run s = .ok (none, t) := by
  rw [scanSequence, run_bind_none h]

theorem run_scanSequence_stop (h : (explore id).run.run s = .ok (some found, t))
    (hi : g.Issued id) (ho : (t.context.seen g id).isOptional = false) :
    (scanSequence g explore (id :: rest)).run.run s = .ok (some found, t) := by
  rw [scanSequence, run_bind_some h, run_bind_some (run_isOptional hi), ho]
  rfl

theorem run_scanSequence_step {b : Option (List ElementId)}
    (h : (explore id).run.run s = .ok (some found, t)) (hi : g.Issued id)
    (ho : (t.context.seen g id).isOptional = true)
    (hr : (scanSequence g explore rest).run.run t = .ok (b, u)) :
    (scanSequence g explore (id :: rest)).run.run s = .ok (b.map (found ++ ·), u) := by
  rw [scanSequence, run_bind_some h, run_bind_some (run_isOptional hi), ho, if_pos rfl]
  cases b with
  | none => exact run_bind_none hr
  | some more => exact run_bind_some hr

theorem run_inherit_all {around : Cardinality} (hi : ∀ id ∈ found, g.Issued id) :
    (found.forM fun id => (liftM (Query.inherit g around id) : Search Unit)).run.run s =
      .ok (some (), s.handOn g around (some found)) := by
  induction found generalizing s with
  | nil => simp [Exploration.handOn, Context.handOn]
  | cons id found ih =>
    have hstep : (liftM (Query.inherit g around id) : Search Unit).run.run s = _ :=
      run_query (Query.run_inherit (hi id (by simp)))
    rw [List.forM_eq_forM, List.forM_cons, run_bind_some hstep, ← List.forM_eq_forM,
      ih fun other ho => hi other (by simp [ho])]
    simp only [Exploration.handOn, Option.getD_some, ← Context.handOn_cons]

theorem run_inheriting {around : Cardinality} {explore : Search (List ElementId)}
    {a : Option (List ElementId)} (h : explore.run.run s = .ok (a, t))
    (hi : ∀ found, a = some found → ∀ id ∈ found, g.Issued id) :
    (inheriting g around explore).run.run s = .ok (a, t.handOn g around a) := by
  cases a with
  | none =>
    rw [inheriting, run_bind_none h]
    simp [Exploration.handOn, Context.handOn]
  | some found =>
    rw [inheriting, run_bind_some h, run_bind_some (run_inherit_all (hi found rfl))]
    rfl

theorem run_repetition_nil (hi : g.Issued id) (hr : (s.context.seen g id).isRepeatable = false) :
    (repetition g explore id).run.run s = .ok (some [], s) := by
  rw [repetition, run_bind_some (run_isRepeatable hi), hr]
  rfl

theorem run_repetition_again (hi : g.Issued id)
    (hr : (s.context.seen g id).isRepeatable = true) :
    (repetition g explore id).run.run s = (explore id).run.run s := by
  rw [repetition, run_bind_some (run_isRepeatable hi), hr, if_pos rfl]

theorem run_repetitions_nil {member : ElementId} (hi : g.Issued id) (hm : g.Issued member)
    (hr : (s.context.seen g id).isRepeatable = false)
    (hrm : (s.context.seen g member).isRepeatable = false) :
    (repetitions g explore id member).run.run s = .ok (some [], s) := by
  rw [repetitions, run_bind_some (run_repetition_nil hi hr)]
  split_ifs
  · rfl
  · rw [run_bind_some (run_repetition_nil hm hrm)]
    rfl

theorem run_repetitions_none {member : ElementId} (hi : g.Issued id) (hm : g.Issued member)
    (hr : (s.context.seen g id).isRepeatable = true ∨
      (s.context.seen g member).isRepeatable = true)
    (hid : (explore id).run.run s = .ok (none, s))
    (hmember : (explore member).run.run s = .ok (none, s)) :
    (repetitions g explore id member).run.run s = .ok (none, s) := by
  rw [repetitions]
  cases ho : (s.context.seen g id).isRepeatable with
  | true => exact run_bind_none ((run_repetition_again hi ho).trans hid)
  | false =>
    have hrm : (s.context.seen g member).isRepeatable = true := by simpa [ho] using hr
    have hne : member ≠ id := by
      intro heq
      subst heq
      simp [ho] at hrm
    rw [run_bind_some (run_repetition_nil hi ho), if_neg hne]
    exact run_bind_none ((run_repetition_again hm hrm).trans hmember)

theorem run_widen_stop (hi : ∀ id ∈ found, g.Issued id) {further : Search (List ElementId)}
    (ho : (found.all fun id => (s.context.seen g id).isOptional) = false) :
    (widen g found further).run.run s = .ok (some found, s) := by
  rw [widen, run_bind_some (run_query (Query.run_allOptional hi)), ho]
  rfl

theorem run_widen_step (hi : ∀ id ∈ found, g.Issued id) {further : Search (List ElementId)}
    {b : Option (List ElementId)}
    (ho : (found.all fun id => (s.context.seen g id).isOptional) = true)
    (hf : further.run.run s = .ok (b, t)) :
    (widen g found further).run.run s = .ok (b.map (found ++ ·), t) := by
  rw [widen, run_bind_some (run_query (Query.run_allOptional hi)), ho, if_pos rfl]
  cases b with
  | none => exact run_bind_none hf
  | some more => exact run_bind_some hf

end Search

end GrammarLookahead
