import GrammarLookahead.Lookahead.Scan
import Mathlib.Data.List.Basic

namespace GrammarLookahead

@[simp] theorem ok_bind {α β : Type} (a : α) (f : α → Except Fault β) :
    (Except.ok a >>= f) = f a := rfl

@[simp] theorem map_ok {α β : Type} (a : α) (f : α → β) :
    (f <$> (Except.ok a : Except Fault α)) = .ok (f a) := rfl

@[simp] theorem pure_eq_ok {α : Type} (a : α) : (pure a : Except Fault α) = .ok a := rfl

theorem bind_eq_ok {α β : Type} {x : Except Fault α} {f : α → Except Fault β} {b : β} :
    (x >>= f) = .ok b ↔ ∃ a, x = .ok a ∧ f a = .ok b := by
  cases x with
  | error e => simp [bind, Except.bind]
  | ok a => simp

theorem exists_of_isOk {ε α : Type} {x : Except ε α} (h : x.isOk = true) : ∃ a, x = .ok a := by
  cases x with
  | error e => cases h
  | ok a => exact ⟨a, rfl⟩

theorem run_bind_ok {σ α β : Type} {m : StateT σ (Except Fault) α}
    {f : α → StateT σ (Except Fault) β} {s t : σ} {a : α} (h : m.run s = .ok (a, t)) :
    (m >>= f).run s = (f a).run t := by
  rw [StateT.run_bind, h, ok_bind]

theorem run_lift_ok {σ α : Type} {x : Except Fault α} {s : σ} {a : α} (h : x = .ok a) :
    (liftM x : StateT σ (Except Fault) α).run s = .ok (a, s) := by
  subst h
  rfl

namespace Grammar

variable {g : Grammar}

/-- The grammar has the element. -/
def Issued (g : Grammar) (id : ElementId) : Prop :=
  ∃ e, g.element? id = some e

theorem Issued.index_lt {id : ElementId} (h : g.Issued id) : id.index < g.elements.size := by
  obtain ⟨e, he⟩ := h
  exact (Array.getElem?_eq_some_iff.mp he).1

/-- The cardinality written at an element of the grammar. -/
def written (g : Grammar) (id : ElementId) : Cardinality :=
  ((g.element? id).map Element.cardinality).getD .once

theorem written_of {id : ElementId} {e : Element} (he : g.element? id = some e) :
    g.written id = e.cardinality := by
  simp [written, he]

end Grammar

theorem Cardinality.skippable_skippable (c : Cardinality) :
    c.skippable.skippable = c.skippable := by
  cases c <;> rfl

namespace Context

variable {g : Grammar}

/-- The cardinality that counts for an element of the grammar, for which it never faults. -/
def seen (o : Context) (g : Grammar) (id : ElementId) : Cardinality :=
  (o.get? id).getD (g.written id)

theorem effective_eq {o : Context} {id : ElementId} (h : g.Issued id) :
    o.effective g id = .ok (o.seen g id) := by
  obtain ⟨e, he⟩ := h
  cases ho : o.get? id with
  | some c => simp [effective, seen, ho]
  | none => simp [effective, seen, ho, Grammar.cardinality, Grammar.element_eq_ok_iff.mpr he,
      Grammar.written_of he]

/-- What a context becomes when a fragment hands its cardinality on to what was found in it. -/
def handOn (g : Grammar) (around : Cardinality) (o : Context) (found : List ElementId) : Context :=
  if around.isOptional then
    found.foldl (fun o id => o.insert id (o.seen g id).skippable) o
  else o

/-- Every mark is what the cardinality written at its element becomes when it may be skipped. -/
def Faithful (g : Grammar) (o : Context) : Prop :=
  ∀ id c, o.get? id = some c → c = (g.written id).skippable

/-- The context has a mark on the element. -/
def Marks (o : Context) (id : ElementId) : Prop :=
  (o.get? id).isSome = true

theorem faithful_empty : Faithful g ∅ := by
  intro id c h
  simp at h

theorem not_marks_empty (id : ElementId) : ¬ (∅ : Context).Marks id := by
  simp [Marks]

theorem marks_insert {o : Context} {id other : ElementId} {c : Cardinality} :
    (o.insert id c).Marks other ↔ other = id ∨ o.Marks other := by
  unfold Marks
  rw [get?_insert]
  split_ifs with h
  · simp [h]
  · simp [Ne.symm h]

theorem Faithful.skippable_seen {o : Context} (ho : Faithful g o) (id : ElementId) :
    (o.seen g id).skippable = (g.written id).skippable := by
  cases h : o.get? id with
  | none => simp [seen, h]
  | some c => simp [seen, h, ho id c h, Cardinality.skippable_skippable]

theorem Faithful.isRepeatable_seen {o : Context} (ho : Faithful g o) (id : ElementId) :
    (o.seen g id).isRepeatable = (g.written id).isRepeatable := by
  have h := congrArg Cardinality.isRepeatable (ho.skippable_seen id)
  simpa using h

theorem Faithful.isOptional_seen {o : Context} (ho : Faithful g o) (id : ElementId) :
    (o.seen g id).isOptional = true ↔ (g.written id).isOptional = true ∨ o.Marks id := by
  cases h : o.get? id with
  | none => simp [seen, Marks, h]
  | some c => simp [seen, Marks, h, ho id c h]

theorem Faithful.insert {o : Context} (ho : Faithful g o) (id : ElementId) :
    Faithful g (o.insert id (o.seen g id).skippable) := by
  intro other c h
  rw [get?_insert] at h
  split_ifs at h with he
  · subst he
    rw [← Option.some.inj h, ho.skippable_seen]
  · exact ho other c h

theorem handOn_cons {around : Cardinality} {o : Context} {id : ElementId}
    {found : List ElementId} : o.handOn g around (id :: found) =
      (o.handOn g around [id]).handOn g around found := by
  unfold handOn
  split_ifs <;> rfl

theorem Faithful.handOn {o : Context} (ho : Faithful g o) (around : Cardinality)
    (found : List ElementId) : Faithful g (o.handOn g around found) := by
  unfold Context.handOn
  split_ifs
  · induction found generalizing o with
    | nil => exact ho
    | cons id found ih => exact ih (ho.insert id)
  · exact ho

theorem marks_handOn {o : Context} {around : Cardinality} {found : List ElementId}
    {id : ElementId} : (o.handOn g around found).Marks id ↔
      o.Marks id ∨ around.isOptional = true ∧ id ∈ found := by
  unfold handOn
  split_ifs with h
  · induction found generalizing o with
    | nil => simp
    | cons other found ih =>
      rw [List.foldl_cons, ih, marks_insert]
      simp only [h, List.mem_cons]
      tauto
  · simp [h]

theorem marks_of_handOn {o p : Context} {around : Cardinality} {found : List ElementId}
    {id : ElementId} (h : p.Marks id → o.Marks id ∨ id ∈ found)
    (hid : (p.handOn g around found).Marks id) : o.Marks id ∨ id ∈ found := by
  rcases marks_handOn.mp hid with hid | ⟨-, hid⟩
  · exact h hid
  · exact .inr hid

theorem marks_or_mem_append {o p : Context} {found more : List ElementId} {id : ElementId}
    (h : p.Marks id → o.Marks id ∨ id ∈ found) (h' : p.Marks id ∨ id ∈ more) :
    o.Marks id ∨ id ∈ found ++ more := by
  rcases h' with hid | hid
  · exact (h hid).imp_right (List.mem_append_left more)
  · exact .inr (List.mem_append_right found hid)

end Context

namespace Query

variable {g : Grammar} {o p : Context}

theorem run_isOptional {id : ElementId} (h : g.Issued id) :
    (isOptional g id).run o = .ok ((o.seen g id).isOptional, o) := by
  simp [isOptional, effective, Context.effective_eq h]

theorem run_isRepeatable {id : ElementId} (h : g.Issued id) :
    (isRepeatable g id).run o = .ok ((o.seen g id).isRepeatable, o) := by
  simp [isRepeatable, effective, Context.effective_eq h]

theorem run_allOptional {ids : List ElementId} (h : ∀ id ∈ ids, g.Issued id) :
    (allOptional g ids).run o = .ok (ids.all fun id => (o.seen g id).isOptional, o) := by
  induction ids with
  | nil => rfl
  | cons id ids ih =>
    rw [allOptional, run_bind_ok (run_isOptional (h id (by simp)))]
    cases hs : (o.seen g id).isOptional with
    | true => simpa [hs] using ih fun other ho => h other (by simp [ho])
    | false => simp [hs]

theorem run_inherit {around : Cardinality} {id : ElementId} (h : g.Issued id) :
    (inherit g around id).run o = .ok ((), o.handOn g around [id]) := by
  unfold inherit Context.handOn
  split_ifs
  · simp [effective, Context.effective_eq h]
  · rfl

theorem run_forM_inherit {around : Cardinality} {found : List ElementId}
    (h : ∀ id ∈ found, g.Issued id) :
    (found.forM (inherit g around)).run o = .ok ((), o.handOn g around found) := by
  induction found generalizing o with
  | nil => simp [Context.handOn]
  | cons id found ih =>
    rw [List.forM_eq_forM, List.forM_cons, run_bind_ok (run_inherit (h id (by simp))),
      ← List.forM_eq_forM, ih fun other ho => h other (by simp [ho]), ← Context.handOn_cons]

end Query

end GrammarLookahead
