import GrammarLookahead.Grammar.Label
import GrammarLookahead.Proofs.Diagnosis
import GrammarLookahead.Proofs.Indices
import GrammarLookahead.Proofs.LeftRecursion.Resume
import GrammarLookahead.Proofs.LeftRecursion.Settlement
import GrammarLookahead.Proofs.Lookahead.Entries
import GrammarLookahead.Proofs.Lookahead.Inbounds

namespace GrammarLookahead

open Relation

variable {g : Grammar} {id : ElementId}

namespace Grammar

/-- The grammar has the rule. -/
def Declared (g : Grammar) (rule : RuleId) : Prop :=
  ∃ r, g.rule? rule = some r

/-- All handles that the grammar stores are handles of elements and rules that it has. -/
structure RefersInside (g : Grammar) : Prop where
  container : ∀ {id e outer}, g.element? id = some e → e.container = some outer → g.Issued outer
  children : ∀ {id e}, g.element? id = some e → g.AllIssued e.children
  target : ∀ {id e name target arguments}, g.element? id = some e →
    e.kind = .ruleCall name (some target) arguments → g.Declared target
  body : ∀ {rule r body}, g.rule? rule = some r → r.body? = some body → g.Issued body
  bodyOwner : ∀ {body rule}, g.bodyOwner? body = some rule → g.Declared rule
  ruleNamed : ∀ {name rule}, g.ruleNamed? name = some rule → g.Declared rule

theorem declared_of_ruleNamed? {name : String} {rule : RuleId}
    (h : g.ruleNamed? name = some rule) : g.Declared rule := by
  obtain ⟨r, hr, -⟩ := exists_rule_of_ruleNamed? h
  exact ⟨r, hr⟩

theorem declared_of_parserRule? {rule : RuleId} {r : ParserRule} (h : g.parserRule? rule = some r) :
    g.Declared rule := by
  obtain ⟨r', hr', -⟩ := Option.bind_eq_some_iff.mp h
  exact ⟨r', hr'⟩

theorem Forest.declared_of_bodyOwner? (hg : g.Forest) {body : ElementId} {rule : RuleId}
    (h : g.bodyOwner? body = some rule) : g.Declared rule := by
  obtain ⟨r, hr, -⟩ := hg.bodyOwner?_eq_some_iff.mp h
  exact ⟨r, hr⟩

theorem Forest.refersInside (hg : g.Forest) (hl : g.Linked) : g.RefersInside where
  container := by
    intro id e outer he hc
    have ho : g.Holds outer id := hg.holds_iff.mpr ⟨e, he, hc⟩
    exact ho.issued
  children := by
    intro id e he inner hm
    exact hg.issued_inner ⟨e, he, hm⟩
  target := by
    intro id e name target arguments he hk
    exact declared_of_ruleNamed? (hl.target he hk).symm
  body := by
    intro rule r body hr hb
    obtain ⟨e, he, -⟩ := hg.root ⟨r, hr, hb⟩
    exact ⟨e, he⟩
  bodyOwner := hg.declared_of_bodyOwner?
  ruleNamed := declared_of_ruleNamed?

theorem Forest.outermostWithin_inbounds (hg : g.Forest) (h : g.Issued id) (steps : Nat) :
    Inbounds g.Issued (g.outermostWithin steps id) := by
  induction steps generalizing id with
  | zero => rfl
  | succ steps ih =>
    obtain ⟨e, he⟩ := h
    rw [outermostWithin, container_of he, ok_bind]
    cases hc : e.container with
    | none => exact ⟨e, he⟩
    | some outer =>
      have ho : g.Holds outer id := hg.holds_iff.mpr ⟨e, he, hc⟩
      exact ih ho.issued

theorem Forest.owner_inbounds (hg : g.Forest) (h : g.Issued id) :
    Inbounds (fun owner? => ∀ rule ∈ owner?, g.Declared rule) (g.owner id) := by
  have htop : Inbounds g.Issued (g.outermost id) := hg.outermostWithin_inbounds h _
  exact htop.bind fun top _ rule hrule => hg.declared_of_bodyOwner? hrule

theorem exists_callee (h : g.Issued id) : ∃ called?, g.callee id = .ok called? ∧
    ∀ called ∈ called?, g.parserRule? called.1 = some called.2 := by
  have hends : ∃ called?, g.callee id = .ok called? := by
    obtain ⟨e, he⟩ := h
    rw [callee, element_eq_ok_iff.mpr he, ok_bind]
    split <;> exact ⟨_, rfl⟩
  obtain ⟨called?, hcallee⟩ := hends
  refine ⟨called?, hcallee, fun called hcalled => ?_⟩
  rw [Option.mem_def.mp hcalled] at hcallee
  obtain ⟨e, name, arguments, -, -, hrule⟩ := callee_eq_some hcallee
  exact hrule

theorem exists_label (h : g.Issued id) : ∃ text, g.label id = .ok text := by
  obtain ⟨e, he⟩ := h
  exact ⟨e.label, by rw [label, element_eq_ok_iff.mpr he]; rfl⟩

end Grammar

/-- The memo has verdicts on rules of the grammar, and they list elements of the grammar. -/
structure Verdicts.Inside (g : Grammar) (memo : Verdicts) : Prop where
  rules : ∀ rule ∈ memo, g.Declared rule
  openings : ∀ (rule : RuleId) openings, memo[rule]? = some (.acyclic openings) →
    g.AllIssued openings

namespace Grammar

variable {memo : Verdicts}

theorem Attained.onParserRules (hg : g.Forest) (h : g.Attained memo) : memo.OnParserRules g := by
  induction h with
  | fresh => exact fun rule hrule => by simp at hrule
  | again hm hrun ih =>
    obtain ⟨memo', hsurvey, hrun'⟩ := hg.detect_run_of_listing (hm.listing hg)
    cases hrun.symm.trans hrun'
    exact hsurvey.onParserRules (List.Subset.refl _) ih

theorem Attained.inside (hg : g.Forest) (h : g.Attained memo) : memo.Inside g where
  rules := by
    intro rule hrule
    obtain ⟨r, hr⟩ := h.onParserRules hg rule hrule
    exact declared_of_parserRule? hr
  openings := fun rule openings hv id hid => (h.listing hg rule openings hv id hid).issued

theorem Attained.exists_run (hg : g.Forest) (h : g.Attained memo) :
    ∃ found memo', g.detect.run memo = .ok (found, memo') ∧
      ∀ issue ∈ found, g.Declared issue.rule := by
  obtain ⟨memo', -, hrun⟩ := hg.detect_run_of_listing (h.listing hg)
  refine ⟨_, memo', hrun, fun issue hi => ?_⟩
  obtain ⟨r, hr, -⟩ := Verdicts.mem_reported_iff.mp hi
  exact declared_of_parserRule? (mem_parserRules.mp hr)

/-- The rule and the element that the diagnostic is about, if any, are of the grammar. -/
def Locates (g : Grammar) (d : Diagnostic Issue) : Prop :=
  (∀ rule ∈ d.rule, g.Declared rule) ∧ ∀ id ∈ d.element, g.Issued id

theorem ReportsCall.locates {d : Diagnostic Issue} (h : g.ReportsCall id d) : g.Locates d := by
  obtain ⟨name, around, hcall, howner, rfl⟩ := h
  constructor
  · intro rule hrule
    obtain ⟨⟨rule', r⟩, haround, rfl⟩ := Option.map_eq_some_iff.mp hrule
    exact ⟨r, ((howner rule' r).mp haround).1⟩
  · intro id' hid
    cases hid
    exact issued_of_mem_elementIds hcall.mem_elementIds

theorem Forest.cyclicRuleDiagnostic_locates (hg : g.Forest) {cyclic : List CyclicRule}
    (h : g.cyclicRules = .ok cyclic) {issue : CyclicRule} (hi : issue ∈ cyclic) (severity : Severity) :
    g.Locates (g.cyclicRuleDiagnostic severity issue) := by
  obtain ⟨r, body, hr, -, hb⟩ := hg.body_of_cyclic h hi
  have hbody : g.IsBody issue.rule body := (isBody_iff (mem_parserRules.mpr hr)).mpr hb
  rw [cyclicRuleDiagnostic, hr, Option.bind_some, hb]
  constructor
  · intro rule hrule
    cases hrule
    exact declared_of_parserRule? hr
  · intro id hid
    cases hid
    exact hg.isSome_of_inRule (Forest.inRule_body hbody)

theorem Linked.unresolvedCallDiagnostic_inbounds (hl : g.Linked) (hg : g.Forest) (h : g.Issued id) :
    Inbounds (fun d? => ∀ d ∈ d?, g.Locates d) (g.unresolvedCallDiagnostic id) := by
  by_cases hcall : ∃ name, g.CallsUnknown id name
  · obtain ⟨name, hcall⟩ := hcall
    have howner := hg.owner_inbounds h
    cases hfound : g.owner id with
    | error fault =>
      rw [hfound] at howner
      rw [hl.unresolvedCallDiagnostic_of_error hcall hfound]
      exact howner
    | ok owner? =>
      obtain ⟨d, hd, hreport⟩ := hl.exists_report hg hcall hfound
      rw [hd]
      intro d' hd'
      cases hd'
      exact hreport.locates
  · rw [hl.unresolvedCallDiagnostic_of_not h hcall]
    intro d hd
    cases hd

theorem Linked.unresolvedCallDiagnostics_inbounds (hl : g.Linked) (hg : g.Forest)
    {ids : List ElementId} (h : g.AllIssued ids) :
    Inbounds (fun reports => ∀ d ∈ reports, g.Locates d) (g.unresolvedCallDiagnostics ids) := by
  induction ids with
  | nil => exact fun d hd => absurd hd List.not_mem_nil
  | cons id ids ih =>
    obtain ⟨hid, hids⟩ := h.of_cons
    rw [unresolvedCallDiagnostics]
    refine (hl.unresolvedCallDiagnostic_inbounds hg hid).bind fun d? hd? => ?_
    refine (ih hids).bind fun reports hreports d hd => ?_
    exact (List.mem_append.mp hd).elim (fun hd => hd? d (Option.mem_toList.mp hd)) (hreports d)

theorem Linked.check_inbounds (hl : g.Linked) (hg : g.Forest) (options : CheckOptions) :
    Inbounds (fun reports => ∀ d ∈ reports, g.Locates d) (g.check options) := by
  have hcycles : Inbounds
      (fun cyclic => ∀ d ∈ cyclic.map (g.cyclicRuleDiagnostic options.cyclicRuleSeverity), g.Locates d)
      (if options.cycles then g.cyclicRules else pure []) := by
    split_ifs
    · obtain ⟨memo, -, hrun⟩ := detect_run hg
      have hcyclic := cyclicRules_of_run hrun
      rw [hcyclic]
      intro d hd
      obtain ⟨issue, hi, rfl⟩ := List.mem_map.mp hd
      exact hg.cyclicRuleDiagnostic_locates hcyclic hi options.cyclicRuleSeverity
    · exact fun d hd => absurd hd List.not_mem_nil
  have hcalls : Inbounds (fun reports => ∀ d ∈ reports, g.Locates d)
      (if options.unresolvedCalls then g.unresolvedCallDiagnostics g.elementIds else pure []) := by
    split_ifs
    · exact hl.unresolvedCallDiagnostics_inbounds hg fun id hid => issued_of_mem_elementIds hid
    · exact fun d hd => absurd hd List.not_mem_nil
  rw [check_eq]
  refine hcycles.bind fun cyclic hcyclic => hcalls.bind fun reports hreports d hd => ?_
  exact (List.mem_append.mp hd).elim (hcyclic d) (hreports d)

/-- Queries that start from elements of the grammar come across no other handles than its own, in
every context and from every memo that detections leave behind. A query that has no end is cut off
somewhere on its way, and the way is in range wherever that is. -/
structure AnswersInside (g : Grammar) : Prop where
  openings : ∀ depth {id}, g.Issued id → Query.Inbounds g.AllIssued (g.openingsWithin depth id)
  continuations : ∀ depth {stack}, g.AllIssued stack →
    Query.Inbounds g.AllIssued (g.continuationsWithin depth stack)
  context : ∀ {o}, ReflTransGen (Context.Call g) ∅ o → o.Inside g
  outermost : ∀ steps {id}, g.Issued id → Inbounds g.Issued (g.outermostWithin steps id)
  owner : ∀ {id}, g.Issued id →
    Inbounds (fun owner? => ∀ rule ∈ owner?, g.Declared rule) (g.owner id)
  callee : ∀ {id}, g.Issued id → ∃ called?, g.callee id = .ok called? ∧
    ∀ called ∈ called?, g.parserRule? called.1 = some called.2
  label : ∀ {id}, g.Issued id → ∃ text, g.label id = .ok text
  memo : ∀ {memo}, g.Attained memo → memo.Inside g
  detect : ∀ {memo}, g.Attained memo → ∃ found memo', g.detect.run memo = .ok (found, memo') ∧
    ∀ issue ∈ found, g.Declared issue.rule
  check : ∀ options, Inbounds (fun reports => ∀ d ∈ reports, g.Locates d) (g.check options)

theorem Forest.answersInside (hg : g.Forest) (hl : g.Linked) : g.AnswersInside where
  openings := fun depth id hid => (hg.staysInbounds depth).openings id hid
  continuations := fun depth stack hstack => (hg.staysInbounds depth).continuations stack hstack
  context := fun ho => (Context.settled_empty.calls ho).1.inside
  outermost := fun steps _ hid => hg.outermostWithin_inbounds hid steps
  owner := hg.owner_inbounds
  callee := exists_callee
  label := exists_label
  memo := Attained.inside hg
  detect := Attained.exists_run hg
  check := hl.check_inbounds hg

end Grammar

/-- How the commands are run with indices, whatever handles are in them: to the end, with the answers
that they have without indices, and with an index of bodies that leads to rules only. -/
structure IndexedDraft.RunsThrough (d : IndexedDraft) (name : String) (commands : List Command) :
    Prop where
  run : IndexedDraft.performAll { name } commands = .ok d
  tracks : d.Tracks (Draft.performAll { name } commands)
  owner : LeadsToRules Rule.body? d.owners d.rules
  next : ∀ command, ∃ d', d.perform command =
    .ok (((Draft.performAll { name } commands).perform command).1, d')
  finish : d.finish = Grammar.build name commands
  indices : ∀ {g}, Grammar.build name commands = .ok g →
    (∀ rule, d.names[rule]? = g.ruleNamed? rule) ∧ ∀ body, d.owners[body]? = g.bodyOwner? body

theorem IndexedDraft.exists_runsThrough (name : String) (commands : List Command) :
    ∃ d : IndexedDraft, d.RunsThrough name commands := by
  obtain ⟨d, hrun, htracks⟩ := Tracks.performAll name commands
  refine ⟨d, hrun, htracks, htracks.leadsToRules, ?_, htracks.finish_eq, htracks.indices_finish⟩
  intro command
  obtain ⟨d', hd', -⟩ := htracks.perform command
  exact ⟨d', hd'⟩

/-- Commands with whatever handles are run to the end, also after a mistake. If they build a grammar,
it stores its own handles only, and its queries come across no others. -/
theorem inRange_of_commands (name : String) (commands : List Command) :
    (∃ d : IndexedDraft, d.RunsThrough name commands) ∧
      ∀ g, Grammar.build name commands = .ok g → g.RefersInside ∧ g.AnswersInside := by
  refine ⟨IndexedDraft.exists_runsThrough name commands, ?_⟩
  intro g h
  have hg := Grammar.forest_of_build h
  have hl := Grammar.linked_of_build h
  exact ⟨hg.refersInside hl, hg.answersInside hl⟩

/-- A rule `A: A B` whose openings have no end, and which calls a rule that there is not. -/
def winding : List Command :=
  [.add (.ruleCall "A" none []), .add (.ruleCall "B" none []), .add (.group [⟨0⟩, ⟨1⟩]),
    .declare (.parser { name := "A", body := some ⟨2⟩ })]

/-- Handles of elements that have not been made, and after that a body that a rule has already. -/
def trespassing : List Command :=
  [.add (.keyword "a"), .declare (.parser { name := "A", body := some ⟨0⟩ }),
    .add (.alternatives [⟨9⟩, ⟨0⟩]), .declare (.parser { name := "B", body := some ⟨0⟩ }),
    .declare (.parser { name := "C", body := some ⟨8⟩ }), .setCardinality ⟨7⟩ .optional]

theorem inRange_of_commands_winding :
    (∃ g, Grammar.build "G" winding = .ok g ∧ g.RefersInside ∧ g.AnswersInside) ∧
      Grammar.build "G" trespassing = .error (.unknownElement ⟨9⟩) ∧
        ∃ d : IndexedDraft, d.RunsThrough "G" trespassing := by
  obtain ⟨g, hg⟩ := exists_of_isOk (x := Grammar.build "G" winding) (by decide +kernel)
  refine ⟨⟨g, hg, (inRange_of_commands "G" winding).2 g hg⟩, by decide +kernel, ?_⟩
  exact (inRange_of_commands "G" trespassing).1

end GrammarLookahead
