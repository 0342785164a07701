import GrammarLookahead.Diagnostic.Check
import GrammarLookahead.Proofs.Ascent
import GrammarLookahead.Proofs.LeftRecursion.Survey
import GrammarLookahead.Proofs.Resolution

namespace GrammarLookahead

/-- Only rules with a body are called cyclic. -/
def Verdicts.Bodied (g : Grammar) (memo : Verdicts) : Prop :=
  ∀ rule : RuleId, memo[rule]? = some .cyclic → ∃ body, g.IsBody rule body

variable {g : Grammar}

theorem Verdicts.Bodied.insert {memo : Verdicts} (h : memo.Bodied g) {rule : RuleId}
    {answer : Option (List ElementId)} (ha : answer = none → ∃ body, g.IsBody rule body) :
    Verdicts.Bodied g (memo.insert rule (.ofOpenings? answer)) := by
  intro other ho
  rcases Verdicts.cases_of_insert ho with ⟨rfl, hv⟩ | ho
  · have hanswer := congrArg Verdict.openings? hv
    rw [Verdict.openings?_ofOpenings?] at hanswer
    exact ha hanswer.symm
  · exact h other ho

theorem Explores.exists_body_of_none {depth path s t} {body? : Option ElementId}
    (h : Explores g depth path (.branches body?.toList) s none t) : ∃ body, body ∈ body? := by
  cases body? with
  | none => nomatch h
  | some body => exact ⟨body, rfl⟩

theorem Explores.bodied {depth path task s a t} (h : Explores g depth path task s a t)
    (hs : s.memo.Bodied g) : t.memo.Bodied g := by
  refine h.memo_preserves (P := Verdicts.Bodied g) (fun hp h hm => hm.insert fun hnone => ?_) hs
  -- A rule without a body has nothing to give up at.
  subst hnone
  obtain ⟨body, hb⟩ := h.exists_body_of_none
  exact ⟨body, hp.isBody_iff.mpr hb⟩

theorem Surveys.bodied {rules : List (RuleId × ParserRule)} {memo memo' : Verdicts}
    (h : Surveys g rules memo memo') (hrules : rules ⊆ g.parserRules) (hm : memo.Bodied g) :
    memo'.Bodied g := by
  refine h.invariant hrules ?_ hm
  intro id rule memo a t hm hid _ h
  refine (h.bodied (show (Exploration.start memo).memo.Bodied g from hm)).insert fun hnone => ?_
  subst hnone
  obtain ⟨body, hb⟩ := h.exists_body_of_none
  exact ⟨body, (Grammar.isBody_iff hid).mpr hb⟩

namespace Grammar

theorem Forest.body_of_cyclic (hg : g.Forest) {cyclic : List CyclicRule}
    (h : g.cyclicRules = .ok cyclic) {issue : CyclicRule} (hi : issue ∈ cyclic) :
    ∃ rule body, g.parserRule? issue.rule = some rule ∧ issue.name = rule.name ∧
      rule.body = some body := by
  obtain ⟨memo, rule, hsurvey, hid, hname, hv⟩ := verdict_of_cyclicRules hg h hi
  have hbodied : memo.Bodied g :=
    hsurvey.bodied (List.Subset.refl _) fun rule hrule => by simp at hrule
  obtain ⟨body, hb⟩ := hbodied issue.rule hv
  exact ⟨rule, body, mem_parserRules.mp hid, hname, (isBody_iff hid).mp hb⟩

/-- The element is a call of the name, which no rule has. -/
def CallsUnknown (g : Grammar) (id : ElementId) (name : String) : Prop :=
  (∃ e target arguments, g.element? id = some e ∧ e.kind = .ruleCall name target arguments) ∧
    ∀ rule r, g.rule? rule = some r → r.name ≠ name

/-- The diagnostic reports the cyclic rule at the body of the rule, which there is. -/
def ReportsCycle (g : Grammar) (severity : Severity) (issue : CyclicRule)
    (d : Diagnostic Issue) : Prop :=
  ∃ rule body, g.parserRule? issue.rule = some rule ∧ issue.name = rule.name ∧
    rule.body = some body ∧
    d = { code := Issue.cyclicRuleKind.code, severity,
          message := Issue.cyclicRuleKind.message issue, properties := .cyclicRule issue,
          rule := some issue.rule, element := some body }

/-- The diagnostic reports the call at the element. It names the one rule that has the call in its
body, and none if there is no such rule. -/
def ReportsCall (g : Grammar) (id : ElementId) (d : Diagnostic Issue) : Prop :=
  ∃ (name : String) (around : Option (RuleId × Rule)), g.CallsUnknown id name ∧
    (∀ rule r, around = some (rule, r) ↔ g.rule? rule = some r ∧ g.Owns rule id) ∧
    d = { code := Issue.unresolvedCallKind.code, severity := .warning,
          message := Issue.unresolvedCallKind.message ⟨name, around.map (·.2.name)⟩,
          properties := .unresolvedCall ⟨name, around.map (·.2.name)⟩,
          rule := around.map (·.1), element := some id }

/-- The diagnostics report the cyclic rules, one each and in their order, if they are asked for. -/
def ReportsCycles (g : Grammar) (options : CheckOptions) (reports : List (Diagnostic Issue)) :
    Prop :=
  if options.cycles then
    ∃ cyclic, g.cyclicRules = .ok cyclic ∧
      cyclic.Forall₂ (g.ReportsCycle options.cyclicRuleSeverity) reports
  else reports = []

/-- The diagnostics report the calls of names that no rule has, one each and in their order, if they
are asked for. -/
def ReportsCalls (g : Grammar) (options : CheckOptions) (reports : List (Diagnostic Issue)) :
    Prop :=
  if options.unresolvedCalls then
    ∃ calls : List ElementId, calls.Pairwise (·.index < ·.index) ∧
      (∀ id, id ∈ calls ↔ ∃ name, g.CallsUnknown id name) ∧ calls.Forall₂ g.ReportsCall reports
  else reports = []

variable {id : ElementId} {name : String}

theorem Linked.callsUnknown_iff (hl : g.Linked) : g.CallsUnknown id name ↔
    ∃ e arguments, g.element? id = some e ∧ e.kind = .ruleCall name none arguments := by
  constructor
  · intro h
    obtain ⟨⟨e, target, arguments, he, hk⟩, hno⟩ := h
    have htarget := hl.target he hk
    rw [hl.ruleNamed?_eq_none_iff.mpr hno] at htarget
    exact ⟨e, arguments, he, htarget ▸ hk⟩
  · intro h
    obtain ⟨e, arguments, he, hk⟩ := h
    exact ⟨⟨e, none, arguments, he, hk⟩, hl.ruleNamed?_eq_none_iff.mp (hl.target he hk).symm⟩

theorem Linked.unresolvedCallDiagnostic_of_not (hl : g.Linked) (hid : g.Issued id)
    (h : ¬ ∃ name, g.CallsUnknown id name) : g.unresolvedCallDiagnostic id = .ok none := by
  obtain ⟨e, he⟩ := hid
  rw [unresolvedCallDiagnostic, element_eq_ok_iff.mpr he, ok_bind]
  split
  · rename_i name arguments hk
    exact absurd ⟨name, hl.callsUnknown_iff.mpr ⟨e, arguments, he, hk⟩⟩ h
  · rfl

theorem Linked.unresolvedCallDiagnostic_of_error (hl : g.Linked) (h : g.CallsUnknown id name)
    {fault : Fault} (howner : g.owner id = .error fault) :
    g.unresolvedCallDiagnostic id = .error fault := by
  obtain ⟨e, arguments, he, hk⟩ := hl.callsUnknown_iff.mp h
  rw [unresolvedCallDiagnostic, element_eq_ok_iff.mpr he, ok_bind, hk]
  simp only [howner]
  rfl

theorem Linked.exists_report (hl : g.Linked) (hg : g.Forest) (h : g.CallsUnknown id name)
    {owner? : Option RuleId} (howner : g.owner id = .ok owner?) :
    ∃ d, g.unresolvedCallDiagnostic id = .ok (some d) ∧ g.ReportsCall id d := by
  obtain ⟨e, arguments, he, hk⟩ := hl.callsUnknown_iff.mp h
  have howns : ∀ {rule}, owner? = some rule ↔ g.Owns rule id := hg.owner_eq_some_iff howner
  rw [unresolvedCallDiagnostic, element_eq_ok_iff.mpr he, ok_bind, hk]
  simp only [howner, ok_bind]
  cases owner? with
  | none =>
    refine ⟨_, rfl, name, none, h, ?_, rfl⟩
    intro rule r
    simp [← howns]
  | some owner =>
    obtain ⟨body, ⟨r, hr, -⟩, -⟩ := howns.mp rfl
    refine ⟨_, by rw [Option.mapM_some, rule_eq_ok_iff.mpr hr]; rfl, name, some (owner, r), h, ?_, rfl⟩
    intro rule r'
    rw [← howns]
    constructor
    · rintro ⟨⟩
      exact ⟨hr, rfl⟩
    · rintro ⟨hr', ⟨⟩⟩
      rw [Option.some.inj (hr.symm.trans hr')]

open scoped Classical in
theorem Linked.forall₂_reportsCall (hl : g.Linked) (hg : g.Forest) {ids : List ElementId}
    (hids : ∀ id ∈ ids, g.Issued id) {reports : List (Diagnostic Issue)}
    (h : g.unresolvedCallDiagnostics ids = .ok reports) :
    (ids.filter fun id => ∃ name, g.CallsUnknown id name).Forall₂ g.ReportsCall reports := by
  induction ids generalizing reports with
  | nil =>
    cases h
    exact .nil
  | cons id ids ih =>
    obtain ⟨d?, hd, h⟩ := bind_eq_ok.mp h
    obtain ⟨rest, hrest, h⟩ := bind_eq_ok.mp h
    cases h
    have htail := ih (fun id hid => hids id (List.mem_cons_of_mem _ hid)) hrest
    by_cases hcall : ∃ name, g.CallsUnknown id name
    · rw [List.filter_cons_of_pos (by simpa using hcall)]
      obtain ⟨name, hcall⟩ := hcall
      cases howner : g.owner id with
      | error fault =>
        rw [hl.unresolvedCallDiagnostic_of_error hcall howner] at hd
        cases hd
      | ok owner? =>
        obtain ⟨d, hd', hreport⟩ := hl.exists_report hg hcall howner
        obtain rfl := Except.ok.inj (hd'.symm.trans hd)
        exact .cons hreport htail
    · rw [List.filter_cons_of_neg (by simpa using hcall)]
      rw [hl.unresolvedCallDiagnostic_of_not (hids id List.mem_cons_self) hcall] at hd
      cases hd
      exact htail

theorem Linked.unresolvedCallDiagnostics_ends_iff (hl : g.Linked) (hg : g.Forest)
    {ids : List ElementId} (hids : ∀ id ∈ ids, g.Issued id) :
    (∃ reports, g.unresolvedCallDiagnostics ids = .ok reports) ↔
      ∀ id ∈ ids, ∀ name, g.CallsUnknown id name → ¬ g.Looped id := by
  induction ids with
  | nil => simp [unresolvedCallDiagnostics, pure, Except.pure]
  | cons id ids ih =>
    have hid := hids id List.mem_cons_self
    rw [List.forall_mem_cons, ← ih fun id hid => hids id (List.mem_cons_of_mem _ hid)]
    constructor
    · intro h
      obtain ⟨reports, h⟩ := h
      obtain ⟨d?, hd, h⟩ := bind_eq_ok.mp h
      obtain ⟨rest, hrest, -⟩ := bind_eq_ok.mp h
      refine ⟨?_, rest, hrest⟩
      intro name hcall
      rw [← hg.owner_ends_iff hid]
      cases howner : g.owner id with
      | error fault =>
        rw [hl.unresolvedCallDiagnostic_of_error hcall howner] at hd
        cases hd
      | ok owner? => exact ⟨owner?, rfl⟩
    · intro h
      obtain ⟨hends, rest, hrest⟩ := h
      have hone : ∃ d?, g.unresolvedCallDiagnostic id = .ok d? := by
        by_cases hcall : ∃ name, g.CallsUnknown id name
        · obtain ⟨name, hcall⟩ := hcall
          obtain ⟨owner?, howner⟩ := (hg.owner_ends_iff hid).mpr (hends name hcall)
          obtain ⟨d, hd, -⟩ := hl.exists_report hg hcall howner
          exact ⟨some d, hd⟩
        · exact ⟨none, hl.unresolvedCallDiagnostic_of_not hid hcall⟩
      obtain ⟨d?, hd⟩ := hone
      exact ⟨d?.toList ++ rest, by rw [unresolvedCallDiagnostics, hd, ok_bind, hrest]; rfl⟩

theorem issued_of_mem_elementIds (h : id ∈ g.elementIds) : g.Issued id :=
  ⟨_, Array.getElem?_eq_getElem (mem_elementIds.mp h)⟩

theorem CallsUnknown.mem_elementIds (h : g.CallsUnknown id name) : id ∈ g.elementIds := by
  obtain ⟨⟨e, -, -, he, -⟩, -⟩ := h
  exact mem_elementIds_of he

theorem pairwise_elementIds (g : Grammar) : g.elementIds.Pairwise (·.index < ·.index) :=
  List.pairwise_map.mpr List.pairwise_lt_range

theorem check_eq (g : Grammar) (options : CheckOptions) : g.check options =
    (if options.cycles then g.cyclicRules else pure []) >>= fun cyclic =>
      (if options.unresolvedCalls then g.unresolvedCallDiagnostics g.elementIds else pure []) >>=
        fun reports =>
          pure (cyclic.map (g.cyclicRuleDiagnostic options.cyclicRuleSeverity) ++ reports) := by
  unfold check
  split_ifs <;> rfl

theorem Forest.reportsCycles (hg : g.Forest) {options : CheckOptions} {cyclic : List CyclicRule}
    (h : (if options.cycles then g.cyclicRules else pure []) = .ok cyclic) :
    g.ReportsCycles options (cyclic.map (g.cyclicRuleDiagnostic options.cyclicRuleSeverity)) := by
  unfold ReportsCycles
  split_ifs at h ⊢
  · refine ⟨cyclic, h, List.forall₂_map_right_iff.mpr (List.forall₂_same.mpr ?_)⟩
    intro issue hi
    obtain ⟨rule, body, hrule, hname, hbody⟩ := hg.body_of_cyclic h hi
    refine ⟨rule, body, hrule, hname, hbody, ?_⟩
    simp only [cyclicRuleDiagnostic, hrule, Option.bind_some, hbody, Option.elim_some]
    rfl
  · cases h
    rfl

theorem Linked.reportsCalls (hl : g.Linked) (hg : g.Forest) {options : CheckOptions}
    {reports : List (Diagnostic Issue)}
    (h : (if options.unresolvedCalls then g.unresolvedCallDiagnostics g.elementIds else pure []) =
      .ok reports) : g.ReportsCalls options reports := by
  classical
  unfold ReportsCalls
  split_ifs at h ⊢
  · refine ⟨g.elementIds.filter fun id => ∃ name, g.CallsUnknown id name,
      g.pairwise_elementIds.filter _, ?_,
      hl.forall₂_reportsCall hg (fun id hid => issued_of_mem_elementIds hid) h⟩
    intro id
    rw [List.mem_filter, decide_eq_true_iff]
    exact and_iff_right_of_imp fun ⟨name, hcall⟩ => hcall.mem_elementIds
  · cases h
    rfl

/-- A check of unresolved calls ends unless it comes to one for which the way up has no end. -/
theorem Linked.check_ends_iff (hl : g.Linked) (hg : g.Forest) (options : CheckOptions) :
    (∃ diagnostics, g.check options = .ok diagnostics) ↔
      (options.unresolvedCalls = true → ∀ id name, g.CallsUnknown id name → ¬ g.Looped id) := by
  obtain ⟨memo, -, hrun⟩ := detect_run hg
  have hcyclic : ∃ cyclic, (if options.cycles then g.cyclicRules else pure []) = .ok cyclic := by
    split_ifs
    · exact ⟨_, cyclicRules_of_run hrun⟩
    · exact ⟨[], rfl⟩
  obtain ⟨cyclic, hcyclic⟩ := hcyclic
  have hissued : ∀ id ∈ g.elementIds, g.Issued id := fun id hid => issued_of_mem_elementIds hid
  have hends := hl.unresolvedCallDiagnostics_ends_iff hg hissued
  rw [check_eq, hcyclic, ok_bind]
  cases options.unresolvedCalls with
  | false => simp
  | true =>
    simp only [if_true, bind_eq_ok, forall_const]
    constructor
    · intro h id name hcall
      obtain ⟨diagnostics, reports, hreports, -⟩ := h
      exact hends.mp ⟨reports, hreports⟩ id hcall.mem_elementIds name hcall
    · intro h
      obtain ⟨reports, hreports⟩ := hends.mpr fun id _ => h id
      exact ⟨_, reports, hreports, rfl⟩

end Grammar

/-- A check reports the cyclic rules, each at its body, and after them the calls of names that no rule
has, each with the rule around it; it reports nothing else. -/
theorem check_reports {name : String} {commands : List Command} {g : Grammar}
    (h : Grammar.build name commands = .ok g) {options : CheckOptions}
    {diagnostics : List (Diagnostic Issue)} (hcheck : g.check options = .ok diagnostics) :
    ∃ cycles calls, diagnostics = cycles ++ calls ∧ g.ReportsCycles options cycles ∧
      g.ReportsCalls options calls := by
  have hg := Grammar.forest_of_build h
  have hl := Grammar.linked_of_build h
  rw [Grammar.check_eq] at hcheck
  obtain ⟨cyclic, hcyclic, hcheck⟩ := bind_eq_ok.mp hcheck
  obtain ⟨reports, hreports, hcheck⟩ := bind_eq_ok.mp hcheck
  exact ⟨_, reports, (Except.ok.inj hcheck).symm, hg.reportsCycles hcyclic,
    hl.reportsCalls hg hreports⟩

/-- A left recursive rule `A: A B` that calls a rule which there is not, a rule `C: 'c'` that is not
left recursive, and another such call outside of all rules. -/
def faulty : Grammar where
  name := "G"
  elements := #[⟨.ruleCall "A" (some ⟨0⟩) [], .once, some ⟨2⟩⟩,
    ⟨.ruleCall "B" none [], .once, some ⟨2⟩⟩, ⟨.group [⟨0⟩, ⟨1⟩], .once, none⟩,
    ⟨.keyword "c", .once, none⟩, ⟨.ruleCall "B" none [], .once, none⟩]
  rules := #[.parser { name := "A", body := some ⟨2⟩ }, .parser { name := "C", body := some ⟨3⟩ }]

theorem build_faulty : Grammar.build "G" [.add (.ruleCall "A" none []), .add (.ruleCall "B" none []),
    .add (.group [⟨0⟩, ⟨1⟩]), .declare (.parser { name := "A", body := some ⟨2⟩ }),
    .add (.keyword "c"), .declare (.parser { name := "C", body := some ⟨3⟩ }),
    .add (.ruleCall "B" none [])] = .ok faulty := by
  decide +kernel

def faultyCycles : List (Diagnostic Issue) :=
  [⟨"ERR0001", .error, "Rule A is cyclic: it can reach itself before consuming any token",
    .cyclicRule ⟨⟨0⟩, "A"⟩, some ⟨0⟩, some ⟨2⟩⟩]

def faultyCalls : List (Diagnostic Issue) :=
  [⟨"WARN0001", .warning, "Could not resolve rule B called from A",
      .unresolvedCall ⟨"B", some "A"⟩, some ⟨0⟩, some ⟨1⟩⟩,
    ⟨"WARN0001", .warning, "Could not resolve rule B",
      .unresolvedCall ⟨"B", none⟩, none, some ⟨4⟩⟩]

theorem check_faulty : faulty.check {} = .ok (faultyCycles ++ faultyCalls) := by
  decide +kernel

/-- `A` is reported and `C` is not, and both calls of `B` are. -/
theorem check_reports_faulty : faulty.check {} = .ok (faultyCycles ++ faultyCalls) ∧
    ∃ cycles calls, faultyCycles ++ faultyCalls = cycles ++ calls ∧
      faulty.ReportsCycles {} cycles ∧ faulty.ReportsCalls {} calls :=
  ⟨check_faulty, check_reports build_faulty check_faulty⟩

end GrammarLookahead
