import GrammarLookahead.Proofs.LeftRecursion.Adherence

namespace GrammarLookahead

/-- The state in which the exploration of a rule starts. -/
def Exploration.start (memo : Verdicts) : Exploration :=
  { memo }

namespace Grammar

variable {g : Grammar}

theorem mem_parserRules {id : RuleId} {rule : ParserRule} :
    (id, rule) ∈ g.parserRules ↔ g.parserRule? id = some rule := by
  simp only [parserRules, ruleEntries, List.mem_filterMap, List.mem_map, Prod.exists,
    List.mem_zipIdx_iff_getElem?, Option.map_eq_map, Option.map_eq_some_iff, Prod.mk.injEq,
    parserRule?, rule?, Option.bind_eq_some_iff]
  constructor
  · intro h
    obtain ⟨_, r, ⟨r', index, hr, rfl, rfl⟩, rule', hrule, rfl, rfl⟩ := h
    exact ⟨r', by simpa using hr, hrule⟩
  · intro h
    obtain ⟨r, hr, hrule⟩ := h
    exact ⟨id, r, ⟨r, id.index, by simpa using hr, rfl, rfl⟩, rule, hrule, rfl, rfl⟩

theorem exists_rule_of_mem {id : RuleId} {rule : ParserRule} (h : (id, rule) ∈ g.parserRules) :
    ∃ r, g.rule? id = some r ∧ r.body? = rule.body := by
  obtain ⟨r, hr, hrule⟩ := Option.bind_eq_some_iff.mp (mem_parserRules.mp h)
  exact ⟨r, hr, by simp [Rule.body?, hrule]⟩

theorem isBody_iff {id : RuleId} {rule : ParserRule} (h : (id, rule) ∈ g.parserRules)
    {body : ElementId} : g.IsBody id body ↔ body ∈ rule.body := by
  obtain ⟨r, hr, hbody⟩ := exists_rule_of_mem h
  rw [← hbody]
  constructor
  · intro h
    obtain ⟨r', hr', hb⟩ := h
    cases hr.symm.trans hr'
    exact hb
  · exact fun hb => ⟨r, hr, hb⟩

end Grammar

/-- Exploring the rules of a list in order turns the first memo into the second. -/
inductive Surveys (g : Grammar) : List (RuleId × ParserRule) → Verdicts → Verdicts → Prop
  | nil {memo} : Surveys g [] memo memo
  | known {id rule rest memo memo'} {v : Verdict} : memo[id]? = some v →
      Surveys g rest memo memo' → Surveys g ((id, rule) :: rest) memo memo'
  | explored {id rule rest memo memo' a t} : id ∉ memo →
      Explores g g.explorationDepth [] (.branches rule.body.toList) (.start memo) a t →
      Surveys g rest (t.memoize id a).memo memo' → Surveys g ((id, rule) :: rest) memo memo'

namespace Surveys

variable {g : Grammar} {rules : List (RuleId × ParserRule)} {memo memo' : Verdicts}

/-- A property of the memo that every exploration of a rule preserves holds in the end. -/
theorem invariant {P : Verdicts → Prop} (h : Surveys g rules memo memo')
    (hrules : rules ⊆ g.parserRules)
    (hstep : ∀ {id rule memo a t}, P memo → (id, rule) ∈ g.parserRules → id ∉ memo →
      Explores g g.explorationDepth [] (.branches rule.body.toList) (.start memo) a t →
      P (t.memoize id a).memo)
    (hP : P memo) : P memo' := by
  induction h with
  | nil => exact hP
  | known _ _ ih => exact ih (List.subset_of_cons_subset hrules) hP
  | explored hm h _ ih =>
    exact ih (List.subset_of_cons_subset hrules)
      (hstep hP (hrules List.mem_cons_self) hm h)

theorem kept_of_explored (hg : g.Forest) {id : RuleId} {rule : ParserRule} {a t}
    (hm : id ∉ memo)
    (h : Explores g g.explorationDepth [] (.branches rule.body.toList) (.start memo) a t)
    {other : RuleId} {v : Verdict} (hv : memo[other]? = some v) :
    (t.memoize id a).memo[other]? = some v := by
  have hne : id ≠ other := by
    intro heq
    subst heq
    exact hm (mem_memo_iff.mpr ⟨v, hv⟩)
  simp only [Exploration.memoize, Std.ExtTreeMap.getElem?_insert,
    Std.LawfulEqOrd.compare_eq_iff_eq, hne, if_false]
  exact (h.advance hg).memo hv

theorem kept (hg : g.Forest) (h : Surveys g rules memo memo') {id : RuleId} {v : Verdict}
    (hv : memo[id]? = some v) : memo'[id]? = some v := by
  induction h with
  | nil => exact hv
  | known _ _ ih => exact ih hv
  | explored hm h _ ih => exact ih (kept_of_explored hg hm h hv)

theorem complete (hg : g.Forest) (h : Surveys g rules memo memo') {id : RuleId}
    {rule : ParserRule} (hid : (id, rule) ∈ rules) : ∃ v, memo'[id]? = some v := by
  induction h with
  | nil => cases hid
  | known hv h ih =>
    rcases List.mem_cons.mp hid with heq | hid
    · cases heq
      exact ⟨_, h.kept hg hv⟩
    · exact ih hid
  | @explored _ _ _ _ _ a _ _ _ h ih =>
    rcases List.mem_cons.mp hid with heq | hid
    · cases heq
      exact ⟨.ofOpenings? a, h.kept hg (by simp [Exploration.memoize])⟩
    · exact ih hid

end Surveys

/-- The rules of a list that the memo calls cyclic. -/
def Verdicts.reported (memo : Verdicts) (rules : List (RuleId × ParserRule)) : List CyclicRule :=
  rules.filterMap fun (id, rule) =>
    if memo[id]?.any Verdict.isCyclic then some ⟨id, rule.name⟩ else none

theorem Verdicts.reported_cons {memo : Verdicts} {id : RuleId} {rule : ParserRule}
    {rest : List (RuleId × ParserRule)} {v : Verdict} (hv : memo[id]? = some v) :
    memo.reported ((id, rule) :: rest) =
      if v.isCyclic then ⟨id, rule.name⟩ :: memo.reported rest else memo.reported rest := by
  simp only [reported, List.filterMap_cons, hv, Option.any_some]
  cases v.isCyclic <;> rfl

theorem Verdicts.mem_reported_iff {memo : Verdicts} {rules : List (RuleId × ParserRule)}
    {issue : CyclicRule} : issue ∈ memo.reported rules ↔
      ∃ rule, (issue.rule, rule) ∈ rules ∧ issue.name = rule.name ∧
        memo[issue.rule]? = some .cyclic := by
  constructor
  · intro h
    obtain ⟨⟨id, rule⟩, hid, heq⟩ := List.mem_filterMap.mp h
    simp only at heq
    split_ifs at heq with hany
    cases heq
    obtain ⟨v, hv, hcyclic⟩ := (Option.any_eq_true _ _).mp hany
    cases v with
    | cyclic => exact ⟨rule, hid, rfl, hv⟩
    | acyclic openings => cases hcyclic
  · intro h
    obtain ⟨rule, hid, hname, hv⟩ := h
    refine List.mem_filterMap.mpr ⟨(issue.rule, rule), hid, ?_⟩
    simp [hv, Verdict.isCyclic, Verdict.openings?, ← hname]

theorem Verdicts.mem_reported {memo : Verdicts} {rules : List (RuleId × ParserRule)} {id : RuleId}
    {rule : ParserRule} {v : Verdict} (hid : (id, rule) ∈ rules) (hv : memo[id]? = some v)
    (hc : v.openings? = none) : ⟨id, rule.name⟩ ∈ memo.reported rules := by
  cases v with
  | cyclic => exact mem_reported_iff.mpr ⟨rule, hid, rfl, hv⟩
  | acyclic openings => cases hc

theorem visitable_start {g : Grammar} (hg : g.Forest) {id : RuleId} {body : ElementId}
    (hb : g.IsBody id body) {memo : Verdicts} (hm : id ∉ memo) :
    Visitable g [] body (.start memo) where
  coherent := {
    nodup := .nil
    inRule := by simp
    outer := by simp
    visited := by simp
    closed := by simp [Exploration.start]
    entered := by simp [Exploration.start] }
  inRule := Grammar.Forest.inRule_body hb
  outer ho := absurd ho (hg.not_holds_body hb)
  progress := by simp [Exploration.start]
  ahead := by simp [Exploration.start]
  uncalled hb' := hg.owner hb hb' ▸ hm

theorem Explores.exists_body {g : Grammar} (hg : g.Forest) {id : RuleId} {rule : ParserRule}
    (hid : (id, rule) ∈ g.parserRules) {memo : Verdicts} (hm : id ∉ memo) :
    ∃ a t, Explores g g.explorationDepth [] (.branches rule.body.toList) (.start memo) a t := by
  refine exists_branches hg (fun s inner hv => (total hg _).1 [] s inner hv ?_)
    (fun body hb => visitable_start hg
      ((Grammar.isBody_iff hid).mpr (Option.mem_toList.mp hb)) hm)
    (by cases rule.body <;> simp)
  have hle : g.elements.size * (g.elements.size + 2) ≤ (g.elements.size + 1) * (g.elements.size + 2) :=
    Nat.mul_le_mul_right _ (by omega)
  have hsplit : g.explorationDepth = (g.elements.size + 1) * (g.elements.size + 2) +
      (g.elements.size + 2) := by
    rw [Grammar.explorationDepth, ← Nat.succ_mul]
  rw [Grammar.openingsDepth, List.length_nil, Nat.sub_zero]
  omega

namespace Surveys

variable {g : Grammar} {rules : List (RuleId × ParserRule)} {memo memo' : Verdicts}

theorem exists_memo (hg : g.Forest) (hrules : rules ⊆ g.parserRules) (memo : Verdicts) :
    ∃ memo', Surveys g rules memo memo' := by
  induction rules generalizing memo with
  | nil => exact ⟨memo, .nil⟩
  | cons entry rest ih =>
    obtain ⟨id, rule⟩ := entry
    have hrest := ih (List.subset_of_cons_subset hrules)
    cases hv : memo[id]? with
    | some v =>
      obtain ⟨memo', h⟩ := hrest memo
      exact ⟨memo', .known hv h⟩
    | none =>
      have hm : id ∉ memo := by
        intro hm
        obtain ⟨v, hv'⟩ := mem_memo_iff.mp hm
        simp [hv] at hv'
      obtain ⟨a, t, h⟩ := Explores.exists_body hg (hrules List.mem_cons_self) hm
      obtain ⟨memo', h'⟩ := hrest (t.memoize id a).memo
      exact ⟨memo', .explored hm h h'⟩

theorem listing (h : Surveys g rules memo memo') (hrules : rules ⊆ g.parserRules)
    (hm : memo.Listing g) : memo'.Listing g :=
  h.invariant hrules (fun hm _ _ h => have ⟨ha, ht⟩ := h.leaves hm; ht.insert ha) hm

theorem run (hg : g.Forest) {guard : Guard} {keep : Keeper} {scope : Scope}
    (hguard : guard.Adheres scope) (hkeep : keep.Adheres) (hscope : scope [] ∅ = ∅)
    (h : Surveys g rules memo memo') (hrules : rules ⊆ g.parserRules) (hm : memo.Listing g) :
    (g.detectAmongBy guard keep rules).run memo = .ok (memo'.reported rules, memo') := by
  have hstep : ∀ {id : RuleId} {rule : ParserRule} {rest : List (RuleId × ParserRule)}
      {memo₁ memo₂ memo₃ : Verdicts} {v : Verdict},
      (g.verdictOnBy guard keep id rule).run memo₁ = .ok (v, memo₂) → memo₃[id]? = some v →
      (g.detectAmongBy guard keep rest).run memo₂ = .ok (memo₃.reported rest, memo₃) →
      (g.detectAmongBy guard keep ((id, rule) :: rest)).run memo₁ =
        .ok (memo₃.reported ((id, rule) :: rest), memo₃) := by
    intro id rule rest memo₁ memo₂ memo₃ v hv hkept hrest
    rw [Grammar.detectAmongBy, run_bind_ok hv, run_bind_ok hrest, Verdicts.reported_cons hkept]
    rfl
  induction h with
  | nil => rfl
  | @known id rule rest memo memo' v hv h ih =>
    refine hstep ?_ (h.kept hg hv) (ih (List.subset_of_cons_subset hrules) hm)
    rw [Grammar.verdictOnBy, run_bind_ok (a := memo) (t := memo) rfl, hv]
    rfl
  | @explored id rule rest memo memo' a t hn h h' ih =>
    obtain ⟨ha, ht⟩ := h.leaves hm
    have hrun := h.run hg hguard hkeep hm
    have hid := hrules List.mem_cons_self
    have hwritten := h.written hg (fun body hb => (Grammar.isBody_iff hid).mpr hb) hn
    rw [Task.search, Search.branches_toList] at hrun
    refine hstep (v := .ofOpenings? a) ?_ (h'.kept hg (by simp [Exploration.memoize]))
      (ih (List.subset_of_cons_subset hrules) (ht.insert ha))
    have hstart : (Exploration.start memo).within scope [] = .start memo := by
      simp only [Exploration.within, Exploration.start, hscope]
    rw [hstart] at hrun
    rw [Grammar.verdictOnBy, run_bind_ok (a := memo) (t := memo) rfl,
      Std.ExtTreeMap.getElem?_eq_none hn]
    refine (run_bind_ok (a := memo) (t := memo) rfl).trans ((run_bind_ok (run_lift_ok hrun)).trans ?_)
    exact run_bind_ok (run_lift_ok (hkeep hwritten))

end Surveys

namespace Grammar

/-- Detection on a grammar goes by one survey of its rules, whatever the guard. -/
theorem detectBy_run {g : Grammar} (hg : g.Forest) :
    ∃ memo, Surveys g g.parserRules ∅ memo ∧
      ∀ {guard : Guard} {scope : Scope}, guard.Adheres scope → scope [] ∅ = ∅ →
        (g.detectBy guard).run ∅ = .ok (memo.reported g.parserRules, memo) := by
  obtain ⟨memo, h⟩ := Surveys.exists_memo hg (List.Subset.refl _) ∅
  refine ⟨memo, h, fun {guard scope} hguard hscope => ?_⟩
  exact h.run hg hguard Keeper.replacing_adheres hscope (List.Subset.refl _) Verdicts.listing_empty

theorem cyclicRules_of_run {g : Grammar} {found : List CyclicRule} {memo : Verdicts}
    (h : g.detect.run ∅ = .ok (found, memo)) : g.cyclicRules = .ok found := by
  change Prod.fst <$> g.detect.run ∅ = _
  rw [h]
  rfl

theorem detect_run {g : Grammar} (hg : g.Forest) :
    ∃ memo, Surveys g g.parserRules ∅ memo ∧
      g.detect.run ∅ = .ok (memo.reported g.parserRules, memo) := by
  obtain ⟨memo, h, hrun⟩ := detectBy_run hg
  exact ⟨memo, h, g.detectBy_shared ▸ hrun Guard.shared_adheres rfl⟩

theorem verdict_of_cyclicRules {g : Grammar} (hg : g.Forest) {cyclic : List CyclicRule}
    (h : g.cyclicRules = .ok cyclic) {issue : CyclicRule} (hi : issue ∈ cyclic) :
    ∃ memo rule, Surveys g g.parserRules ∅ memo ∧ (issue.rule, rule) ∈ g.parserRules ∧
      issue.name = rule.name ∧ memo[issue.rule]? = some .cyclic := by
  obtain ⟨memo, hsurvey, hrun⟩ := detect_run hg
  obtain rfl : memo.reported g.parserRules = cyclic :=
    Except.ok.inj ((cyclicRules_of_run hrun).symm.trans h)
  obtain ⟨rule, hid, hname, hv⟩ := Verdicts.mem_reported_iff.mp hi
  exact ⟨memo, rule, hsurvey, hid, hname, hv⟩

end Grammar

end GrammarLookahead
