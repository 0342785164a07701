import GrammarLookahead.Proofs.Naming
import Mathlib.Data.List.Induction
import Std.Data.ExtTreeMap.Lemmas

namespace GrammarLookahead

namespace Command

/-- The rule that the command declares. -/
def declared? : Command → Option Rule
  | .declare rule => some rule
  | _ => none

/-- The rules that the commands declare, in the order in which they are declared. -/
def declared (commands : List Command) : List Rule :=
  commands.filterMap declared?

theorem declared_concat (commands : List Command) (command : Command) :
    declared (commands ++ [command]) = declared commands ++ command.declared?.toList := by
  cases h : command.declared? <;> simp [declared, h]

end Command

/-- The index of names that is kept while rules are declared: a name stays with the first rule that
has it. -/
def nameIndex (rules : List Rule) : Std.ExtTreeMap String RuleId :=
  rules.zipIdx.foldl (fun index (rule, i) => index.insertIfNew rule.name ⟨i⟩) ∅

theorem nameIndex_concat (rules : List Rule) (rule : Rule) :
    nameIndex (rules ++ [rule]) = (nameIndex rules).insertIfNew rule.name ⟨rules.length⟩ := by
  simp [nameIndex, List.zipIdx_append, List.foldl_append]

theorem getElem?_nameIndex (rules : List Rule) (name : String) :
    (nameIndex rules)[name]? = (rules.findIdx? (·.name == name)).map RuleId.mk := by
  induction rules using List.reverseRecOn with
  | nil => simp [nameIndex]
  | append_singleton rules rule ih =>
    rw [nameIndex_concat, Std.ExtTreeMap.getElem?_insertIfNew, ih, List.findIdx?_append]
    have hmem : name ∈ nameIndex rules ↔ (rules.findIdx? (·.name == name)).isSome = true := by
      rw [← Std.ExtTreeMap.isSome_getElem?_iff_mem, ih, Option.isSome_map]
    by_cases hname : rule.name = name
    · subst hname
      cases hfound : rules.findIdx? (·.name == rule.name) with
      | none => simp [hmem, hfound]
      | some i => simp [hmem, hfound]
    · simp [hname]

namespace Draft

open Command

variable {d : Draft}

theorem rules_setCardinality (id : ElementId) (c : Cardinality) :
    (d.setCardinality id c).rules = d.rules := by
  unfold Draft.setCardinality
  split_ifs <;> rfl

theorem rules_checkName (name : String) : (d.checkName name).rules = d.rules := by
  unfold checkName
  split_ifs <;> rfl

theorem rules_declare (rule : Rule) : (d.declare rule).2.rules = d.rules.push rule := by
  have hbody : (rule.body?.elim d d.checkBody).rules = d.rules := by
    cases rule.body? with
    | none => rfl
    | some body => exact rules_checkBody d body
  rw [declare, rules_checkName, hbody]

theorem rules_perform (command : Command) :
    (d.perform command).2.rules.toList = d.rules.toList ++ command.declared?.toList := by
  cases command with
  | add kind =>
    have hrules : (d.perform (.add kind)).2.rules = d.rules := rules_foldl_enclose _ _ _
    simp [hrules, declared?]
  | setCardinality id c =>
    have hrules : (d.perform (.setCardinality id c)).2.rules = d.rules := rules_setCardinality id c
    simp [hrules, declared?]
  | declare rule =>
    have hrules : (d.perform (.declare rule)).2.rules = d.rules.push rule := rules_declare rule
    simp [hrules, declared?]

theorem rules_performAll (name : String) (commands : List Command) :
    (Draft.performAll { name } commands).rules.toList = declared commands := by
  induction commands using List.reverseRecOn with
  | nil => rfl
  | append_singleton commands command ih =>
    have hstep := rules_perform (d := Draft.performAll { name } commands) command
    rw [ih, ← declared_concat] at hstep
    rwa [performAll_append]

end Draft

/-- How names are resolved in a grammar, given the commands that built it. -/
structure Grammar.Resolves (g : Grammar) (commands : List Command) : Prop where
  rules : g.rules.toList = Command.declared commands
  nodup_names : (g.rules.toList.map Rule.name).Nodup
  /-- A name stands for the rule that has it. -/
  ruleNamed?_iff : ∀ {name id}, g.ruleNamed? name = some id ↔
    ∃ r, g.rule? id = some r ∧ r.name = name
  index : ∀ name, (nameIndex (Command.declared commands))[name]? = g.ruleNamed? name
  /-- A call has the target that its name stands for, declared before the call was made or after. -/
  target : ∀ {id e name target arguments}, g.element? id = some e →
    e.kind = .ruleCall name target arguments → target = g.ruleNamed? name
  /-- What has a callee is a call, and the callee is the parser rule of the name that is called. -/
  callee_iff : ∀ {id rule called}, g.callee id = .ok (some (rule, called)) ↔
    ∃ e name target arguments, g.element? id = some e ∧ e.kind = .ruleCall name target arguments ∧
      g.parserRule? rule = some called ∧ called.name = name

namespace Grammar

variable {g : Grammar} {commands : List Command}

theorem exists_rule_of_ruleNamed? {id : RuleId} {name : String} (h : g.ruleNamed? name = some id) :
    ∃ r, g.rule? id = some r ∧ r.name = name := by
  obtain ⟨i, hi, rfl⟩ := Option.map_eq_some_iff.mp h
  obtain ⟨hlt, hname, -⟩ := Array.findIdx?_eq_some_iff_getElem.mp hi
  exact ⟨g.rules[i], Array.getElem?_eq_getElem hlt, eq_of_beq hname⟩

theorem Linked.ruleNamed?_eq_some_iff (h : g.Linked) {id : RuleId} {name : String} :
    g.ruleNamed? name = some id ↔ ∃ r, g.rule? id = some r ∧ r.name = name := by
  refine ⟨exists_rule_of_ruleNamed?, ?_⟩
  intro hr
  obtain ⟨r, hr, rfl⟩ := hr
  exact h.ruleNamed?_of hr

theorem Linked.ruleNamed?_eq_none_iff (h : g.Linked) {name : String} :
    g.ruleNamed? name = none ↔ ∀ id r, g.rule? id = some r → r.name ≠ name := by
  constructor
  · intro hnone id r hr hname
    have hsome := h.ruleNamed?_of hr
    rw [hname, hnone] at hsome
    cases hsome
  · intro hno
    cases hfound : g.ruleNamed? name with
    | none => rfl
    | some id =>
      obtain ⟨r, hr, hname⟩ := exists_rule_of_ruleNamed? hfound
      exact absurd hname (hno id r hr)

theorem Linked.callee_iff (h : g.Linked) {id : ElementId} {rule : RuleId} {called : ParserRule} :
    g.callee id = .ok (some (rule, called)) ↔
      ∃ e name target arguments, g.element? id = some e ∧
        e.kind = .ruleCall name target arguments ∧ g.parserRule? rule = some called ∧
          called.name = name := by
  constructor
  · intro hcallee
    obtain ⟨e, name, arguments, he, hk, hrule⟩ := callee_eq_some hcallee
    have hnamed := h.target he hk
    exact ⟨e, name, _, arguments, he, hk, hrule, name_of_ruleNamed? hnamed.symm hrule⟩
  · intro hcall
    obtain ⟨e, name, target, arguments, he, hk, hrule, rfl⟩ := hcall
    have htarget : target = some rule := (h.target he hk).trans (h.ruleNamed?_of_parserRule? hrule)
    rw [callee_eq he hk, htarget, Option.bind_some, hrule]
    rfl

theorem rules_of_build {name : String} (h : Grammar.build name commands = .ok g) :
    g.rules.toList = Command.declared commands := by
  unfold Grammar.build Draft.finish at h
  split at h
  · cases h
  · cases h
    exact Draft.rules_performAll name commands

end Grammar

/-- In a grammar that has been built, every name stands for the rule that has it, and every call
leads to the rule that it names. -/
theorem resolves_of_build {name : String} {commands : List Command} {g : Grammar}
    (h : Grammar.build name commands = .ok g) : g.Resolves commands := by
  have hlinked := Grammar.linked_of_build h
  have hrules := Grammar.rules_of_build h
  refine ⟨hrules, hlinked.names, hlinked.ruleNamed?_eq_some_iff, ?_, hlinked.target,
    hlinked.callee_iff⟩
  intro name
  rw [getElem?_nameIndex, ← hrules, ← List.findIdx?_toArray]
  rfl

/-- Calls of a parser rule that is declared later, of one that was declared before, of a terminal rule
and of no rule. -/
def scattering : List Command :=
  [.add (.ruleCall "B" none []), .declare (.parser { name := "A", body := some ⟨0⟩ }),
    .add (.ruleCall "A" none []), .add (.ruleCall "INT" none []), .add (.ruleCall "C" none []),
    .add (.group [⟨1⟩, ⟨2⟩, ⟨3⟩]), .declare (.terminal { name := "INT" }),
    .declare (.parser { name := "B", body := some ⟨4⟩ })]

def scattered : Grammar where
  name := "G"
  elements := #[⟨.ruleCall "B" (some ⟨2⟩) [], .once, none⟩,
    ⟨.ruleCall "A" (some ⟨0⟩) [], .once, some ⟨4⟩⟩,
    ⟨.ruleCall "INT" (some ⟨1⟩) [], .once, some ⟨4⟩⟩, ⟨.ruleCall "C" none [], .once, some ⟨4⟩⟩,
    ⟨.group [⟨1⟩, ⟨2⟩, ⟨3⟩], .once, none⟩]
  rules := #[.parser { name := "A", body := some ⟨0⟩ }, .terminal { name := "INT" },
    .parser { name := "B", body := some ⟨4⟩ }]

theorem resolves_scattered :
    Grammar.build "G" scattering = .ok scattered ∧ scattered.Resolves scattering := by
  have hbuild : Grammar.build "G" scattering = .ok scattered := by decide +kernel
  exact ⟨hbuild, resolves_of_build hbuild⟩

end GrammarLookahead
