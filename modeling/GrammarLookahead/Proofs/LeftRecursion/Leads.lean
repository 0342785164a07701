import GrammarLookahead.Proofs.Role

namespace GrammarLookahead.Grammar

/-- Lookahead from an element comes to another one: what may be repeated around it, and what comes
behind it in its group or in a group around that. -/
inductive LooksAhead (g : Grammar) : ElementId → ElementId → Prop
  | own {id} : (g.written id).isRepeatable = true → LooksAhead g id id
  | member {id member group?} : g.groupAround id = .ok (member, group?) →
      (g.written member).isRepeatable = true → LooksAhead g id member
  | following {id member group found e before between after} :
      g.groupAround id = .ok (member, some group) → g.element? group = some e →
      e.kind = .group (before ++ member :: (between ++ found :: after)) →
      (∀ other ∈ between, (g.written other).isOptional = true) → LooksAhead g id found
  | climb {id member group found e before} :
      g.groupAround id = .ok (member, some group) → g.element? group = some e →
      e.kind = .group (before ++ [member]) → LooksAhead g group found → LooksAhead g id found

/-- Matching an element can start with the other one, before any token is consumed. -/
inductive Leads (g : Grammar) : ElementId → ElementId → Prop
  | branch {id e branches found} : g.element? id = some e → e.kind = .alternatives branches →
      found ∈ branches → Leads g id found
  | member {id e before found after} : g.element? id = some e →
      e.kind = .group (before ++ found :: after) →
      (∀ other ∈ before, (g.written other).isOptional = true) → Leads g id found
  | terminal {id e feature operator found} : g.element? id = some e →
      e.kind = .assignment feature operator found → Leads g id found
  | body {id called rule found} : g.callee id = .ok (some (called, rule)) →
      rule.body = some found → Leads g id found
  | lookahead {id e typeName feature found} : g.element? id = some e →
      e.kind = .action typeName feature → g.LooksAhead id found → Leads g id found

variable {g : Grammar} {id found : ElementId}

theorem Leads.role (h : g.Leads id found) :
    (∃ branches, g.Plays id (.choice branches) ∧ found ∈ branches) ∨
    (∃ before after, g.Plays id (.sequence (before ++ found :: after)) ∧
      ∀ other ∈ before, (g.written other).isOptional = true) ∨
    (∃ rule body?, g.Plays id (.call rule body?) ∧ found ∈ body?) ∨
    g.Plays id .action ∧ g.LooksAhead id found := by
  cases h with
  | branch he hk hf => exact .inl ⟨_, ⟨_, he, by rw [hk, roleOf]⟩, hf⟩
  | member he hk hopt => exact .inr (.inl ⟨_, _, plays_sequence he hk, hopt⟩)
  | terminal he hk => exact .inl ⟨_, ⟨_, he, by rw [hk, roleOf]⟩, List.mem_singleton_self _⟩
  | body hc hb => exact .inr (.inr (.inl ⟨_, _, plays_call hc, hb⟩))
  | lookahead he hk hl => exact .inr (.inr (.inr ⟨⟨_, he, by rw [hk, roleOf]⟩, hl⟩))

theorem Leads.of_choice (h : g.Leads id found) {branches : List ElementId}
    (hp : g.Plays id (.choice branches)) : found ∈ branches := by
  rcases h.role with ⟨_, hp', hf⟩ | ⟨_, _, hp', -⟩ | ⟨_, _, hp', -⟩ | ⟨hp', -⟩ <;> cases hp.unique hp'
  exact hf

theorem Leads.of_sequence (h : g.Leads id found) {members : List ElementId}
    (hp : g.Plays id (.sequence members)) : ∃ before after, members = before ++ found :: after ∧
      ∀ other ∈ before, (g.written other).isOptional = true := by
  rcases h.role with ⟨_, hp', -⟩ | ⟨before, after, hp', hopt⟩ | ⟨_, _, hp', -⟩ | ⟨hp', -⟩ <;>
    cases hp.unique hp'
  exact ⟨before, after, rfl, hopt⟩

theorem Leads.of_call (h : g.Leads id found) {rule : RuleId} {body? : Option ElementId}
    (hp : g.Plays id (.call rule body?)) : found ∈ body? := by
  rcases h.role with ⟨_, hp', -⟩ | ⟨_, _, hp', -⟩ | ⟨_, _, hp', hf⟩ | ⟨hp', -⟩ <;> cases hp.unique hp'
  exact hf

theorem Leads.of_action (h : g.Leads id found) (hp : g.Plays id .action) :
    g.LooksAhead id found := by
  rcases h.role with ⟨_, hp', -⟩ | ⟨_, _, hp', -⟩ | ⟨_, _, hp', -⟩ | ⟨-, hf⟩ <;>
    first | exact hf | cases hp.unique hp'

theorem not_leads_of_leaf (hp : g.Plays id .leaf) : ¬ g.Leads id found := by
  intro h
  rcases h.role with ⟨_, hp', -⟩ | ⟨_, _, hp', -⟩ | ⟨_, _, hp', -⟩ | ⟨hp', -⟩ <;> cases hp.unique hp'

theorem not_leads_of_closed (hp : g.Plays id .closed) : ¬ g.Leads id found := by
  intro h
  rcases h.role with ⟨_, hp', -⟩ | ⟨_, _, hp', -⟩ | ⟨_, _, hp', -⟩ | ⟨hp', -⟩ <;> cases hp.unique hp'

theorem leads_of_choice {branches : List ElementId} (hp : g.Plays id (.choice branches))
    (hf : found ∈ branches) : g.Leads id found := by
  obtain ⟨e, he, hr⟩ := hp
  unfold roleOf at hr
  split at hr <;> try cases hr
  · rename_i hk
    exact .branch he hk hf
  · rename_i hk
    exact .terminal he (List.mem_singleton.mp hf ▸ hk)
  · rename_i target _ _
    cases ht : g.parserRule? target <;> simp [ht] at hr

theorem leads_of_sequence {before after : List ElementId}
    (hp : g.Plays id (.sequence (before ++ found :: after)))
    (hopt : ∀ other ∈ before, (g.written other).isOptional = true) : g.Leads id found := by
  obtain ⟨e, he, hk, -⟩ := hp.children_sequence
  exact .member he hk hopt

theorem leads_of_call {rule : RuleId} {body? : Option ElementId} (hp : g.Plays id (.call rule body?))
    (hf : found ∈ body?) : g.Leads id found := by
  obtain ⟨called, hc, -, rfl⟩ := hp.callee_of_call
  exact .body hc hf

/-- Nothing that the element leads to is an action. -/
def Plain (g : Grammar) (id : ElementId) : Prop :=
  ∀ found, Relation.ReflTransGen g.Leads id found → ¬ g.Plays found .action

/-- The element is part of a rule whose body leads to no action. -/
def InPlainRule (g : Grammar) (id : ElementId) : Prop :=
  g.Within g.Plain id

/-- The body of a rule that leads to no action leads to the element. -/
def Direct (g : Grammar) (id : ElementId) : Prop :=
  ∃ rule body, g.IsBody rule body ∧ g.Plain body ∧ Relation.ReflTransGen g.Leads body id

theorem Plain.of_reach (h : g.Plain id) (hr : Relation.ReflTransGen g.Leads id found) :
    g.Plain found :=
  fun _ hr' => h _ (hr.trans hr')

namespace Direct

theorem plain (h : g.Direct id) : g.Plain id := by
  obtain ⟨_, _, -, hplain, hr⟩ := h
  exact hplain.of_reach hr

theorem not_action (h : g.Direct id) : ¬ g.Plays id .action :=
  h.plain id .refl

theorem leads (h : g.Direct id) (hl : g.Leads id found) : g.Direct found := by
  obtain ⟨rule, body, hb, hplain, hr⟩ := h
  exact ⟨rule, body, hb, hplain, hr.tail hl⟩

/-- Steps from an element of a rule stay in the rule, or enter the body of another one that leads to
no action either. -/
theorem inPlainRule (h : g.Direct id) : g.InPlainRule id := by
  obtain ⟨rule, body, hb, hplain, hr⟩ := h
  induction hr with
  | refl => exact ⟨rule, body, hb, .refl, hplain⟩
  | tail hr hl ih =>
    obtain ⟨rule', body', hb', he, hplain'⟩ := ih
    rcases hl.role with ⟨_, hp, hf⟩ | ⟨_, _, hp, -⟩ | ⟨rule'', _, hp, hf⟩ | ⟨hp, -⟩
    · exact ⟨rule', body', hb', he.tail (hp.holds_choice hf), hplain'⟩
    · exact ⟨rule', body', hb', he.tail (hp.holds_sequence (by simp)), hplain'⟩
    · exact ⟨rule'', _, hp.isBody_iff.mpr hf, .refl, hplain.of_reach (hr.tail hl)⟩
    · exact absurd hp (hplain _ hr)

end Direct

end GrammarLookahead.Grammar
