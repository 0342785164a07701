import GrammarLookahead.Proofs.Forest

namespace GrammarLookahead

/-- How lookahead treats an element. Several kinds are treated alike: all tokens are matched by
themselves, and an assignment is a choice with a single branch. -/
inductive Role
  /-- Matched by itself: a token, or a call that leads to no parser rule. -/
  | leaf
  /-- Not looked into. -/
  | closed
  | sequence (members : List ElementId)
  | choice (branches : List ElementId)
  /-- Matched by nothing; what comes first is what comes after it. -/
  | action
  | call (rule : RuleId) (body? : Option ElementId)

namespace Grammar

/-- The role of an element of the kind. -/
def roleOf (g : Grammar) : ElementKind → Role
  | .group members => .sequence members
  | .alternatives branches => .choice branches
  | .unorderedGroup _ => .closed
  | .assignment _ _ terminal => .choice [terminal]
  | .action _ _ => .action
  | .ruleCall _ (some target) _ =>
    (g.parserRule? target).elim .leaf fun rule => .call target rule.body
  | _ => .leaf

/-- The element plays the role. -/
def Plays (g : Grammar) (id : ElementId) (role : Role) : Prop :=
  ∃ e, g.element? id = some e ∧ g.roleOf e.kind = role

variable {g : Grammar} {id : ElementId}

theorem Plays.issued {role : Role} (h : g.Plays id role) : g.Issued id := by
  obtain ⟨e, he, -⟩ := h
  exact ⟨e, he⟩

theorem Plays.unique {role role' : Role} (h : g.Plays id role) (h' : g.Plays id role') :
    role = role' := by
  obtain ⟨e, he, rfl⟩ := h
  obtain ⟨e', he', rfl⟩ := h'
  rw [he] at he'
  obtain rfl := Option.some.inj he'
  rfl

theorem plays_of {e : Element} (he : g.element? id = some e) : g.Plays id (g.roleOf e.kind) :=
  ⟨e, he, rfl⟩

theorem Plays.children_sequence {members : List ElementId} (h : g.Plays id (.sequence members)) :
    ∃ e, g.element? id = some e ∧ e.kind = .group members ∧ e.children = members := by
  obtain ⟨e, he, hr⟩ := h
  unfold roleOf at hr
  split at hr <;> try cases hr
  · rename_i hk
    exact ⟨e, he, hk, by simp [Element.children, hk, ElementKind.children]⟩
  · rename_i target _ _
    cases ht : g.parserRule? target <;> simp [ht] at hr

theorem Plays.children_choice {branches : List ElementId} (h : g.Plays id (.choice branches)) :
    ∃ e, g.element? id = some e ∧ e.children = branches := by
  obtain ⟨e, he, hr⟩ := h
  refine ⟨e, he, ?_⟩
  unfold roleOf at hr
  split at hr <;> try cases hr
  · rename_i hk
    simp [Element.children, hk, ElementKind.children]
  · rename_i hk
    simp [Element.children, hk, ElementKind.children]
  · rename_i target _ _
    cases ht : g.parserRule? target <;> simp [ht] at hr

theorem Plays.kind_action (h : g.Plays id .action) : ∃ e typeName feature,
    g.element? id = some e ∧ e.kind = .action typeName feature := by
  obtain ⟨e, he, hr⟩ := h
  unfold roleOf at hr
  split at hr <;> try cases hr
  · rename_i hk
    exact ⟨e, _, _, he, hk⟩
  · rename_i target _ _
    cases ht : g.parserRule? target <;> simp [ht] at hr

theorem plays_sequence {e : Element} {members : List ElementId} (he : g.element? id = some e)
    (hk : e.kind = .group members) : g.Plays id (.sequence members) :=
  ⟨e, he, by simp [hk, roleOf]⟩

theorem Plays.holds_sequence {members : List ElementId} (h : g.Plays id (.sequence members))
    {member : ElementId} (hm : member ∈ members) : g.Holds id member := by
  obtain ⟨e, he, -, rfl⟩ := h.children_sequence
  exact ⟨e, he, hm⟩

theorem Plays.holds_choice {branches : List ElementId} (h : g.Plays id (.choice branches))
    {branch : ElementId} (hb : branch ∈ branches) : g.Holds id branch := by
  obtain ⟨e, he, rfl⟩ := h.children_choice
  exact ⟨e, he, hb⟩

theorem Plays.pairwise_sequence {members : List ElementId} (h : g.Plays id (.sequence members)) :
    members.Pairwise g.Precedes := by
  obtain ⟨e, he, -, rfl⟩ := h.children_sequence
  exact pairwise_precedes he

theorem Plays.pairwise_choice {branches : List ElementId} (h : g.Plays id (.choice branches)) :
    branches.Pairwise g.Precedes := by
  obtain ⟨e, he, rfl⟩ := h.children_choice
  exact pairwise_precedes he

theorem Plays.membersAfter (hg : g.Forest) {member : ElementId} {before after : List ElementId}
    (h : g.Plays id (.sequence (before ++ member :: after))) :
    g.membersAfter id member = .ok after := by
  obtain ⟨e, he, hk, -⟩ := h.children_sequence
  exact hg.membersAfter_eq he hk

theorem callee_eq {id : ElementId} {e : Element} {name : String} {target : Option RuleId}
    {arguments : List String} (he : g.element? id = some e)
    (hk : e.kind = .ruleCall name target arguments) :
    g.callee id = .ok (target.bind fun target => (target, ·) <$> g.parserRule? target) := by
  rw [callee, element_eq_ok_iff.mpr he, ok_bind, hk]
  cases target <;> rfl

theorem callee_eq_some {rule : RuleId} {called : ParserRule}
    (h : g.callee id = .ok (some (rule, called))) : ∃ e name arguments, g.element? id = some e ∧
      e.kind = .ruleCall name (some rule) arguments ∧ g.parserRule? rule = some called := by
  cases he : g.element? id with
  | none => simp [callee, element, he, bind, Except.bind] at h
  | some e =>
    cases hk : e.kind with
    | ruleCall name target arguments =>
      rw [callee_eq he hk] at h
      obtain ⟨target', rfl, ht⟩ := Option.bind_eq_some_iff.mp (Except.ok.inj h)
      obtain ⟨rule', hr, heq⟩ := Option.map_eq_some_iff.mp ht
      cases heq
      exact ⟨e, name, arguments, rfl, hk, hr⟩
    | _ => simp [callee, element_eq_ok_iff.mpr he, hk] at h

theorem plays_call {rule : RuleId} {called : ParserRule}
    (h : g.callee id = .ok (some (rule, called))) : g.Plays id (.call rule called.body) := by
  obtain ⟨e, _, _, he, hk, hr⟩ := callee_eq_some h
  exact ⟨e, he, by simp [hk, roleOf, hr]⟩

theorem Plays.callee_of_call {rule : RuleId} {body? : Option ElementId}
    (h : g.Plays id (.call rule body?)) : ∃ called, g.callee id = .ok (some (rule, called)) ∧
      g.parserRule? rule = some called ∧ called.body = body? := by
  obtain ⟨e, he, hr⟩ := h
  unfold roleOf at hr
  split at hr <;> try cases hr
  rename_i target _ hk
  rw [callee_eq he hk]
  cases ht : g.parserRule? target with
  | none => simp [ht] at hr
  | some called =>
    simp only [ht, Option.elim_some, Role.call.injEq] at hr
    obtain ⟨rfl, rfl⟩ := hr
    exact ⟨called, by simp [ht], ht, rfl⟩

theorem Plays.rule_of_call {rule : RuleId} {body? : Option ElementId}
    (h : g.Plays id (.call rule body?)) : ∃ r, g.rule? rule = some r ∧ r.body? = body? := by
  obtain ⟨called, -, hcalled, rfl⟩ := h.callee_of_call
  obtain ⟨r, hr, hrule⟩ := Option.bind_eq_some_iff.mp hcalled
  exact ⟨r, hr, by rw [Rule.body?, hrule]; rfl⟩

theorem Plays.isBody_iff {rule : RuleId} {body? : Option ElementId}
    (h : g.Plays id (.call rule body?)) {body : ElementId} : g.IsBody rule body ↔ body ∈ body? := by
  obtain ⟨r, hr, rfl⟩ := h.rule_of_call
  constructor
  · intro h
    obtain ⟨r', hr', hb⟩ := h
    rw [hr] at hr'
    cases hr'
    exact hb
  · exact fun hb => ⟨r, hr, hb⟩

end Grammar

end GrammarLookahead
