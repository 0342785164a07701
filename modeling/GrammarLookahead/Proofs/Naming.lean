import GrammarLookahead.Proofs.Construction
import GrammarLookahead.Proofs.Role

namespace GrammarLookahead

namespace Draft

/-- No two rules of a draft without a mistake have the same name. -/
def Named (d : Draft) : Prop :=
  d.mistake = none → (d.rules.toList.map Rule.name).Nodup

theorem rules_enclose (d : Draft) (parent child : ElementId) :
    (d.enclose parent child).rules = d.rules := by
  unfold enclose
  split_ifs
  · rfl
  · split
    · rfl
    · split <;> rfl

theorem rules_foldl_enclose (d : Draft) (parent : ElementId) (children : List ElementId) :
    (children.foldl (·.enclose parent ·) d).rules = d.rules := by
  induction children generalizing d with
  | nil => rfl
  | cons child children ih => rw [List.foldl_cons, ih, rules_enclose]

theorem Named.add {d : Draft} (hd : d.Named) (kind : ElementKind) : (d.add kind).2.Named := by
  intro h
  let made : Draft := { d with elements := d.elements.push ⟨kind, .once, none⟩ }
  have hmade : made.mistake = none := mistake_foldl_enclose h
  have hrules : (d.add kind).2.rules = made.rules := rules_foldl_enclose made _ _
  rw [hrules]
  exact hd hmade

theorem Named.setCardinality {d : Draft} (hd : d.Named) (id : ElementId) (c : Cardinality) :
    (d.setCardinality id c).Named := by
  intro h
  unfold Draft.setCardinality at h ⊢
  split_ifs at h ⊢
  · exact hd h
  · exact absurd h not_mistake_of_fail

theorem rules_checkBody (d : Draft) (body : ElementId) : (d.checkBody body).rules = d.rules := by
  unfold checkBody
  split
  · rfl
  · split_ifs
    · rfl
    · split <;> rfl

theorem name_of_declare {d : Draft} {rule : Rule} (h : (d.declare rule).2.mistake = none) :
    rule.name ∉ d.rules.toList.map Rule.name := by
  have hname : ((rule.body?.elim d d.checkBody).checkName rule.name).mistake = none := h
  have hrules : (rule.body?.elim d d.checkBody).rules = d.rules := by
    cases rule.body? with
    | none => rfl
    | some body => exact rules_checkBody d body
  unfold checkName at hname
  rw [hrules] at hname
  split_ifs at hname with hany
  · exact absurd hname not_mistake_of_fail
  · simpa [Array.mem_iff_getElem] using hany

theorem Named.declare {d : Draft} (hd : d.Named) (rule : Rule) : (d.declare rule).2.Named := by
  intro h
  obtain ⟨heq, hm, -⟩ := declare_cases h
  have hnew := name_of_declare h
  rw [heq]
  simp only [Array.toList_push, List.map_append, List.map_cons, List.map_nil]
  refine List.nodup_append.mpr ⟨hd hm, List.nodup_singleton _, ?_⟩
  intro a ha b hb hab
  obtain rfl := List.mem_singleton.mp hb
  exact hnew (hab ▸ ha)

theorem Named.performAll {d : Draft} (hd : d.Named) (commands : List Command) :
    (d.performAll commands).Named := by
  induction commands generalizing d with
  | nil => exact hd
  | cons command commands ih =>
    refine ih ?_
    cases command with
    | add kind => exact hd.add kind
    | setCardinality id c => exact hd.setCardinality id c
    | declare rule => exact hd.declare rule

end Draft

theorem ElementKind.link_eq_ruleCall {lookup : String → Option RuleId} {kind : ElementKind}
    {name : String} {target : Option RuleId} {arguments : List String}
    (h : kind.link lookup = .ruleCall name target arguments) : target = lookup name := by
  cases kind <;> simp only [link, ElementKind.ruleCall.injEq, reduceCtorEq] at h
  obtain ⟨rfl, rfl, -⟩ := h
  rfl

namespace Grammar

/-- No two rules have the same name, and calls lead to the rules that they name. -/
structure Linked (g : Grammar) : Prop where
  names : (g.rules.toList.map Rule.name).Nodup
  target : ∀ {id e name target arguments}, g.element? id = some e →
    e.kind = .ruleCall name target arguments → target = g.ruleNamed? name

theorem linked_of_build {name : String} {commands : List Command} {g : Grammar}
    (h : Grammar.build name commands = .ok g) : g.Linked := by
  let d := Draft.performAll { name } commands
  have hnamed : d.Named := Draft.Named.performAll (fun _ => by simp) commands
  unfold Grammar.build Draft.finish at h
  split at h
  · cases h
  · rename_i hm
    cases h
    refine ⟨hnamed hm, ?_⟩
    intro id e name target arguments he hk
    rw [element?_link] at he
    obtain ⟨f, -, rfl⟩ := Option.map_eq_some_iff.mp he
    exact ElementKind.link_eq_ruleCall hk

variable {g : Grammar}

theorem Linked.ruleNamed?_of (h : g.Linked) {id : RuleId} {r : Rule} (hr : g.rule? id = some r) :
    g.ruleNamed? r.name = some id := by
  obtain ⟨hlt, hget⟩ := Array.getElem?_eq_some_iff.mp hr
  cases hfound : g.ruleNamed? r.name with
  | none =>
    have hnone := Array.findIdx?_eq_none_iff.mp (Option.map_eq_none_iff.mp hfound)
    simpa using hnone r (Array.mem_of_getElem? hr)
  | some other =>
    obtain ⟨i, hi, rfl⟩ := Option.map_eq_some_iff.mp hfound
    obtain ⟨hlt', hname, -⟩ := Array.findIdx?_eq_some_iff_getElem.mp hi
    have hsame : (g.rules.toList.map Rule.name)[i]? =
        (g.rules.toList.map Rule.name)[id.index]? := by
      simp_all
    have hindex := (List.getElem?_inj (by simpa using hlt') h.names).mp hsame
    rw [hindex]

theorem name_of_parserRule? {id : RuleId} {rule : ParserRule} (h : g.parserRule? id = some rule) :
    ∃ r, g.rule? id = some r ∧ r.name = rule.name := by
  obtain ⟨r, hr, hrule⟩ := Option.bind_eq_some_iff.mp h
  refine ⟨r, hr, ?_⟩
  cases r <;> simp_all [Rule.asParser?, Rule.name]

theorem Linked.ruleNamed?_of_parserRule? (h : g.Linked) {id : RuleId} {rule : ParserRule}
    (hr : g.parserRule? id = some rule) : g.ruleNamed? rule.name = some id := by
  obtain ⟨r, hget, hname⟩ := name_of_parserRule? hr
  exact hname ▸ h.ruleNamed?_of hget

theorem name_of_ruleNamed? {id : RuleId} {name : String} {rule : ParserRule}
    (h : g.ruleNamed? name = some id) (hr : g.parserRule? id = some rule) : rule.name = name := by
  obtain ⟨r, hget, hname⟩ := name_of_parserRule? hr
  obtain ⟨i, hi, rfl⟩ := Option.map_eq_some_iff.mp h
  obtain ⟨hlt, hfound, -⟩ := Array.findIdx?_eq_some_iff_getElem.mp hi
  have hsame : r = g.rules[i] := Option.some.inj (hget.symm.trans (Array.getElem?_eq_getElem hlt))
  rw [← hname, hsame]
  exact eq_of_beq hfound

end Grammar

end GrammarLookahead
