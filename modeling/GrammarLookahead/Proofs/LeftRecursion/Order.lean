import GrammarLookahead.Proofs.LeftRecursion.Survey

namespace GrammarLookahead

/-- The elements that a task names. -/
def Task.elements : Task → List ElementId
  | .openings id | .continuations id => [id]
  | .sequence ids | .branches ids => ids

/-- The task is about no rule whose body has the property. -/
def Task.Avoids (g : Grammar) (P : ElementId → Prop) (task : Task) : Prop :=
  ∀ id ∈ task.elements, ¬ g.Within P id

variable {g : Grammar}

namespace Task.Avoids

variable {P : ElementId → Prop} {task task' : Task} {id member group : ElementId}
  {ids before after : List ElementId}

theorem of_subset (h : task.Avoids g P) (hsub : task'.elements ⊆ task.elements) :
    task'.Avoids g P :=
  fun id hid => h id (hsub hid)

theorem of_mem (h : task.Avoids g P) (hid : id ∈ task.elements) :
    Task.Avoids g P (.openings id) :=
  List.forall_mem_singleton.mpr (h id hid)

theorem sequence (hg : g.Forest) (h : Task.Avoids g P (.openings id))
    (hp : g.Plays id (.sequence ids)) : Task.Avoids g P (.sequence ids) :=
  fun _ hmem hin => h id List.mem_cons_self (hg.within_outer hin (hp.holds_sequence hmem))

theorem choice (hg : g.Forest) (h : Task.Avoids g P (.openings id))
    (hp : g.Plays id (.choice ids)) : Task.Avoids g P (.branches ids) :=
  fun _ hmem hin => h id List.mem_cons_self (hg.within_outer hin (hp.holds_choice hmem))

theorem following (hg : g.Forest) (h : Task.Avoids g P (.continuations id))
    (hn : g.NearestGroup id member (some group))
    (hp : g.Plays group (.sequence (before ++ member :: after))) :
    Task.Avoids g P (.sequence after) :=
  fun _ hmem hin => h id List.mem_cons_self (hg.within_of_later (hn.later_after hp hmem) hin)

theorem around (h : Task.Avoids g P (.continuations id))
    (hn : g.NearestGroup id member (some group))
    (hp : g.Plays group (.sequence (before ++ member :: after))) :
    Task.Avoids g P (.continuations group) :=
  List.forall_mem_singleton.mpr fun hin =>
    h id List.mem_cons_self (hin.of_encloses (hn.encloses_group hp))

theorem cons {path : List ElementId} (h : Task.Avoids g P (.openings id))
    (hpath : ∀ other ∈ path, ¬ g.Within P other) : ∀ other ∈ id :: path, ¬ g.Within P other :=
  List.forall_mem_cons.mpr ⟨h id List.mem_cons_self, hpath⟩

end Task.Avoids

/-- The property of elements is kept when an exploration goes on. -/
structure Stable (g : Grammar) (P : Exploration → ElementId → Prop) : Prop where
  advance : ∀ {T s t id}, Advance g T s t → P s id → P t id
  handOn : ∀ {s around a id}, P s id → P (s.handOn g around a) id
  memoize : ∀ {s rule a id}, P s id → P (s.memoize rule a) id

/-- Marks are on elements that are matched by themselves and have the property, and verdicts list
elements with the property. -/
structure Orderly (g : Grammar) (P : Exploration → ElementId → Prop) (s : Exploration) : Prop where
  memo : ∀ {rule : RuleId} {openings}, s.memo[rule]? = some (.acyclic openings) →
    ∀ id ∈ openings, P s id
  marks : ∀ {id}, s.context.Marks id → g.Plays id .leaf ∧ P s id

theorem Orderly.enter {P : Exploration → ElementId → Prop} {s : Exploration} {id : ElementId}
    (h : Orderly g P s) (hP : Stable g P) {path : List ElementId} (hv : Visitable g path id s)
    (hn : id ∉ s.visited) : Orderly g P (s.enter id) where
  memo hm other ho := hP.advance (hv.advance hn) (h.memo hm other ho)
  marks hk := (h.marks hk).imp_right (hP.advance (hv.advance hn))

/-- An exploration has come to the state with the answer, and knows only of elements with the
property. -/
structure Knows (g : Grammar) (P : Exploration → ElementId → Prop) (s : Exploration)
    (a : Option (List ElementId)) : Prop extends Orderly g P s where
  answer : ∀ found, a = some found → ∀ id ∈ found, P s id

namespace Knows

variable {P : Exploration → ElementId → Prop} {s t : Exploration} {id : ElementId}
  {path : List ElementId} {a b : Option (List ElementId)}

theorem none (h : Orderly g P s) : Knows g P s none :=
  ⟨h, nofun⟩

theorem nil (h : Orderly g P s) : Knows g P s (some []) := by
  refine ⟨h, fun found hf id hid => ?_⟩
  cases hf
  cases hid

theorem singleton (h : Orderly g P s) (hid : P s id) : Knows g P s (some [id]) := by
  refine ⟨h, fun found hf other ho => ?_⟩
  cases hf
  exact List.mem_singleton.mp ho ▸ hid

theorem verdict (h : Orderly g P s) (hP : Stable g P) (hv : Visitable g path id s)
    (hn : id ∉ s.visited) {rule : RuleId} {v : Verdict} (hm : s.memo[rule]? = some v) :
    Knows g P (s.enter id) v.openings? := by
  refine ⟨h.enter hP hv hn, fun found hf other ho => ?_⟩
  cases v with
  | cyclic => cases hf
  | acyclic openings =>
    cases hf
    exact hP.advance (hv.advance hn) (h.memo hm other ho)

theorem handOn (h : Knows g P s a) (hP : Stable g P) {around : Cardinality}
    (hleaf : ∀ found, a = some found → ∀ id ∈ found, g.Plays id .leaf) :
    Knows g P (s.handOn g around a) a where
  memo hm other ho := hP.handOn (h.memo hm other ho)
  marks {id} hk := by
    rcases Context.marks_handOn.mp hk with hk | ⟨-, hid⟩
    · exact (h.marks hk).imp_right hP.handOn
    · cases a with
      | none => cases hid
      | some found => exact ⟨hleaf found rfl id hid, hP.handOn (h.answer found rfl id hid)⟩
  answer found hf id hid := hP.handOn (h.answer found hf id hid)

theorem memoize (h : Knows g P s a) (hP : Stable g P) {rule : RuleId} :
    Knows g P (s.memoize rule a) a where
  memo {other openings} hm id hid := by
    apply hP.memoize
    rcases Verdicts.acyclic_of_insert hm with ⟨-, hanswer⟩ | hm
    · exact h.answer openings hanswer id hid
    · exact h.memo hm id hid
  marks hk := (h.marks hk).imp_right hP.memoize
  answer found hf id hid := hP.memoize (h.answer found hf id hid)

theorem restore (h : Knows g P t a) (hP : ∀ id, P t id → P (s.restore t) id) :
    Knows g P (s.restore t) a where
  memo hm id hid := hP id (h.memo hm id hid)
  marks hk := (h.marks hk).imp_right (hP _)
  answer found hf id hid := hP id (h.answer found hf id hid)

theorem both (h : Knows g P s a) (hP : Stable g P) {T : ElementId → Prop} (ha : Advance g T s t)
    (h' : Knows g P t b) : Knows g P t (a.bind fun found => b.map (found ++ ·)) := by
  refine ⟨h'.toOrderly, fun all hall id hid => ?_⟩
  obtain ⟨found, hf, hall⟩ := Option.bind_eq_some_iff.mp hall
  obtain ⟨more, hmore, rfl⟩ := Option.map_eq_some_iff.mp hall
  rcases List.mem_append.mp hid with hid | hid
  · exact hP.advance ha (h.answer found hf id hid)
  · exact h'.answer more hmore id hid

end Knows

/-- The exploration of the rule with the body has begun, or the rule has a verdict. -/
def Begun (g : Grammar) (s : Exploration) (body : ElementId) : Prop :=
  body ∈ s.visited ∨ ∃ rule, g.IsBody rule body ∧ rule ∈ s.memo

/-- The exploration of the rule that the element is part of has begun. -/
def Known (g : Grammar) (s : Exploration) (id : ElementId) : Prop :=
  g.Within (Begun g s) id

variable {s t : Exploration} {id : ElementId} {depth : Nat} {path : List ElementId} {task : Task}
  {a : Option (List ElementId)}

theorem Begun.advance {body : ElementId} {T : ElementId → Prop} (h : Begun g s body)
    (ha : Advance g T s t) : Begun g t body := by
  rcases h with hv | ⟨rule, hb, hm⟩
  · exact .inl (ha.visited body hv)
  · exact .inr ⟨rule, hb, ha.mem_memo hm⟩

/-- A rule that has begun behind an action has a verdict when the visits there are forgotten. -/
theorem Begun.restore (hg : g.Forest) {rule : RuleId} {body : ElementId}
    (hx : Explores g depth path (.continuations id) s a t) (hb : g.IsBody rule body)
    (h : Begun g t body) : Begun g (s.restore t) body := by
  rcases h with hv | hm
  · rcases (hx.advance hg).entered hb hv with hs | ⟨_, _, hp⟩ | hm
    · exact .inl hs
    · obtain ⟨_, -, ho⟩ := hp.outer
      exact absurd ho (hg.not_holds_body hb)
    · exact .inr ⟨rule, hb, hm⟩
  · exact .inr hm

namespace Known

theorem stable : Stable g (Known g) where
  advance ha h := by
    obtain ⟨rule, body, hb, he, hbegun⟩ := h
    exact ⟨rule, body, hb, he, hbegun.advance ha⟩
  handOn h := h
  memoize h := by
    obtain ⟨rule, body, hb, he, hbegun⟩ := h
    refine ⟨rule, body, hb, he, hbegun.imp_right ?_⟩
    intro hm
    obtain ⟨rule', hb', hm⟩ := hm
    exact ⟨rule', hb', by simp [Exploration.memoize, hm]⟩

theorem restore (hg : g.Forest) {k : ElementId}
    (hx : Explores g depth path (.continuations id) s a t) (h : Known g t k) :
    Known g (s.restore t) k := by
  obtain ⟨rule, body, hb, he, hbegun⟩ := h
  exact ⟨rule, body, hb, he, hbegun.restore hg hx hb⟩

theorem enter (hv : Visitable g path id s) : Known g (s.enter id) id := by
  obtain ⟨rule, body, hb, he⟩ := hv.inRule
  refine ⟨rule, body, hb, he, .inl (Exploration.mem_enter.mpr ?_)⟩
  rcases Relation.ReflTransGen.cases_tail he with heq | ⟨outer, he', ho⟩
  · exact .inl heq.symm
  · exact .inr (hv.coherent.visited_of_encloses he' (hv.coherent.visited outer (hv.outer ho)))

end Known

/-- An exploration comes to know only of elements whose rule has begun. -/
theorem Explores.knows (hg : g.Forest) (h : Explores g depth path task s a t)
    (hm : s.memo.Listing g) (hs : Orderly g (Known g) s) : Knows g (Known g) t a := by
  have hP : Stable g (Known g) := Known.stable
  induction h with
  | revisit | again => exact .none hs
  | leaf hv hn _ => exact .singleton (hs.enter hP hv hn) (Known.enter hv)
  | closed hv hn _ => exact .nil (hs.enter hP hv hn)
  | sequence hv hn _ h ih => exact (ih hm (hs.enter hP hv hn)).handOn hP (h.leaves hm).1
  | choice hv hn _ h ih => exact (ih hm (hs.enter hP hv hn)).handOn hP (h.leaves hm).1
  | action hv hn _ h ih =>
    have hk := (ih hm (hs.enter hP hv hn)).restore fun _ hk => Known.restore hg h hk
    exact hk.handOn hP (h.leaves hm).1
  | known hv hn _ hmv => exact .verdict hs hP hv hn hmv
  | called hv hn _ _ h ih =>
    exact ((ih hm (hs.enter hP hv hn)).handOn hP (h.leaves hm).1).memoize hP
  | sequenceNil | branchesNil | outermost => exact .nil hs
  | sequenceNone _ ih | followNone _ _ _ _ _ _ ih => exact .none (ih hm hs).toOrderly
  | sequenceStop _ _ ih | settle _ _ _ _ _ _ _ ih => exact ih hm hs
  | sequenceStep h _ hr ih ih' | branchesCons h hr ih ih' | climb _ _ _ _ _ h _ hr ih ih' =>
    have hk := ih hm hs
    exact hk.both hP (hr.advance hg) (ih' (h.leaves hm).2 hk.toOrderly)

/-- What verdicts list belongs to rules with verdicts. -/
def Verdicts.Rooted (g : Grammar) (memo : Verdicts) : Prop :=
  ∀ (rule : RuleId) openings, memo[rule]? = some (.acyclic openings) → ∀ id ∈ openings,
    ∃ owner body, g.IsBody owner body ∧ g.Encloses body id ∧ owner ∈ memo

theorem Verdicts.rooted_empty : Verdicts.Rooted g ∅ := fun _ _ hm => by simp at hm

theorem Verdicts.Rooted.start {memo : Verdicts} (h : memo.Rooted g) :
    Orderly g (Known g) (.start memo) where
  memo hm id hid := by
    obtain ⟨owner, body, hb, he, ho⟩ := h _ _ hm id hid
    exact ⟨owner, body, hb, he, .inr ⟨owner, hb, ho⟩⟩
  marks hk := absurd hk (Context.not_marks_empty _)

theorem Verdicts.Rooted.explored (hg : g.Forest) {memo : Verdicts} (h : memo.Rooted g)
    (hm : memo.Listing g) {id : RuleId} {rule : ParserRule} (hid : (id, rule) ∈ g.parserRules)
    (hx : Explores g g.explorationDepth [] (.branches rule.body.toList) (.start memo) a t) :
    Verdicts.Rooted g (t.memoize id a).memo := by
  have hknows : Knows g (Known g) (t.memoize id a) a :=
    (hx.knows hg hm h.start).memoize Known.stable
  intro other openings hv leaf hleaf
  obtain ⟨owner, body, hb, he, hbegun⟩ := hknows.memo hv leaf hleaf
  refine ⟨owner, body, hb, he, ?_⟩
  rcases hbegun with hvisited | ⟨owner', hb', ho⟩
  · rcases (hx.advance hg).entered hb hvisited with hs | hbody | ho
    · simp [Exploration.start] at hs
    · have hbody' := (Grammar.isBody_iff hid).mpr (Option.mem_toList.mp hbody)
      simp [Exploration.memoize, hg.owner hb hbody']
    · simp [Exploration.memoize, ho]
  · exact hg.owner hb hb' ▸ ho

end GrammarLookahead
