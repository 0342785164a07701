import GrammarLookahead.Proofs.Chain
import GrammarLookahead.Proofs.Construction
import GrammarLookahead.Proofs.LeftRecursion.Leads
import GrammarLookahead.Proofs.LeftRecursion.Survey

namespace GrammarLookahead

namespace Grammar

/-- Every chain of steps from the element to what it leads to has an end. -/
def Grounded (g : Grammar) (id : ElementId) : Prop :=
  Acc (fun found id => g.Leads id found) id

variable {g : Grammar} {id : ElementId}

theorem Grounded.not_cycle (h : g.Grounded id) {found : ElementId}
    (hr : Relation.ReflTransGen g.Leads id found) : ¬ Relation.TransGen g.Leads found found :=
  not_cycle_of_acc h hr

end Grammar

variable {g : Grammar}

/-- The bodies of rules that are not cyclic are grounded. -/
def Verdicts.Grounded (g : Grammar) (memo : Verdicts) : Prop :=
  ∀ (rule : RuleId) openings, memo[rule]? = some (.acyclic openings) →
    ∀ body, g.IsBody rule body → g.Grounded body

/-- The elements that a task leads to. -/
def Task.LeadsTo (g : Grammar) : Task → ElementId → Prop
  | .openings id, found => found = id
  | .sequence ids, found => ∃ before after, ids = before ++ found :: after ∧
      ∀ other ∈ before, (g.written other).isOptional = true
  | .branches ids, found => found ∈ ids
  | .continuations id, found => g.LooksAhead id found

theorem Task.leadsTo_cons {id found : ElementId} {rest : List ElementId} :
    Task.LeadsTo g (.sequence (id :: rest)) found ↔ found = id ∨
      (g.written id).isOptional = true ∧ Task.LeadsTo g (.sequence rest) found := by
  constructor
  · intro h
    obtain ⟨before, after, hsplit, hopt⟩ := h
    rcases List.cons_eq_append_iff.mp hsplit with ⟨rfl, heq⟩ | ⟨before, rfl, heq⟩
    · cases heq
      exact .inl rfl
    · exact .inr ⟨hopt id List.mem_cons_self, before, after, heq,
        fun other ho => hopt other (List.mem_cons_of_mem _ ho)⟩
  · intro hcases
    rcases hcases with rfl | ⟨hid, before, after, rfl, hopt⟩
    · exact ⟨[], rest, rfl, by simp⟩
    · refine ⟨id :: before, after, rfl, fun other ho => ?_⟩
      rcases List.mem_cons.mp ho with rfl | ho
      · exact hid
      · exact hopt other ho

theorem Task.leads_of_sequence {id found : ElementId} {members : List ElementId}
    (hp : g.Plays id (.sequence members)) (h : Task.LeadsTo g (.sequence members) found) :
    g.Leads id found := by
  obtain ⟨before, after, rfl, hopt⟩ := h
  exact Grammar.leads_of_sequence hp hopt

theorem Task.leads_of_call {id found : ElementId} {rule : RuleId} {body? : Option ElementId}
    (hp : g.Plays id (.call rule body?)) (h : Task.LeadsTo g (.branches body?.toList) found) :
    g.Leads id found :=
  Grammar.leads_of_call hp (Option.mem_toList.mp h)

namespace Grammar.Grounded

variable {id : ElementId}

theorem of_leaf (hp : g.Plays id .leaf) : g.Grounded id :=
  .intro _ fun _ hl => absurd hl (not_leads_of_leaf hp)

theorem of_closed (hp : g.Plays id .closed) : g.Grounded id :=
  .intro _ fun _ hl => absurd hl (not_leads_of_closed hp)

theorem of_sequence {members : List ElementId} (hp : g.Plays id (.sequence members))
    (h : ∀ found, Task.LeadsTo g (.sequence members) found → g.Grounded found) : g.Grounded id :=
  .intro _ fun found hl => h found (hl.of_sequence hp)

theorem of_choice {branches : List ElementId} (hp : g.Plays id (.choice branches))
    (h : ∀ found, Task.LeadsTo g (.branches branches) found → g.Grounded found) : g.Grounded id :=
  .intro _ fun found hl => h found (hl.of_choice hp)

theorem of_call {rule : RuleId} {body? : Option ElementId} (hp : g.Plays id (.call rule body?))
    (h : ∀ found, Task.LeadsTo g (.branches body?.toList) found → g.Grounded found) :
    g.Grounded id :=
  .intro _ fun found hl => h found (Option.mem_toList.mpr (hl.of_call hp))

end Grammar.Grounded

theorem Verdicts.Grounded.insert {memo : Verdicts} (h : memo.Grounded g) {rule : RuleId}
    {a : Option (List ElementId)}
    (ha : a.isSome = true → ∀ body, g.IsBody rule body → g.Grounded body) :
    Grounded g (memo.insert rule (.ofOpenings? a)) := by
  intro other openings ho
  rcases acyclic_of_insert ho with ⟨rfl, hanswer⟩ | ho
  · exact ha (Option.isSome_iff_exists.mpr ⟨openings, hanswer⟩)
  · exact h other openings ho

namespace Grammar.NearestGroup

variable {id member group : ElementId} {before after : List ElementId}

theorem not_looksAhead (h : g.NearestGroup id member none)
    (hr : (g.written id).isRepeatable = false) (hrm : (g.written member).isRepeatable = false)
    {found : ElementId} : ¬ g.LooksAhead id found := by
  have hans := h.answer
  intro hl
  cases hl with
  | own hrep => simp [hr] at hrep
  | member hg hrep =>
    cases hans.symm.trans hg
    simp [hrm] at hrep
  | following hg => cases hans.symm.trans hg
  | climb hg => cases hans.symm.trans hg

theorem looksAhead (hg : g.Forest) (h : g.NearestGroup id member (some group))
    (hr : (g.written id).isRepeatable = false) (hrm : (g.written member).isRepeatable = false)
    (hp : g.Plays group (.sequence (before ++ member :: after))) {found : ElementId}
    (hl : g.LooksAhead id found) :
    Task.LeadsTo g (.sequence after) found ∨ after = [] ∧ g.LooksAhead group found := by
  have hans := h.answer
  obtain ⟨e, he, hk, hc⟩ := hp.children_sequence
  have hnodup := hc ▸ hg.nodup he
  have hsplit : ∀ {before' after' : List ElementId},
      before ++ member :: after = before' ++ member :: after' → after = after' := by
    intro before' after' heq
    have hbefore : member ∉ before := fun hm =>
      (List.nodup_append.mp hnodup).2.2 _ hm _ List.mem_cons_self rfl
    have hafter : member ∉ after := (List.nodup_cons.mp (List.nodup_append.mp hnodup).2.1).1
    exact ((List.append_cons_inj_of_notMem hbefore hafter).mp heq).2.2
  cases hl with
  | own hrep => simp [hr] at hrep
  | member hga hrep =>
    cases hans.symm.trans hga
    simp [hrm] at hrep
  | following hga he' hk' hopt =>
    cases hans.symm.trans hga
    rw [he] at he'
    cases he'
    rw [hk] at hk'
    exact .inl ⟨_, _, hsplit (ElementKind.group.inj hk'), hopt⟩
  | climb hga he' hk' hl =>
    cases hans.symm.trans hga
    rw [he] at he'
    cases he'
    rw [hk] at hk'
    exact .inr ⟨hsplit (ElementKind.group.inj hk'), hl⟩

end Grammar.NearestGroup

/-- What an exploration with an answer leads to is grounded: all of it has been explored before,
with an answer of its own. -/
theorem Explores.grounded (hg : g.Forest) {depth path task s a t}
    (h : Explores g depth path task s a t) (hm : s.memo.Grounded g) (hc : s.context.Faithful g) :
    t.memo.Grounded g ∧ (a.isSome = true → ∀ found, task.LeadsTo g found → g.Grounded found) := by
  induction h with
  | revisit => exact ⟨hm, by simp⟩
  | leaf _ _ hp =>
    refine ⟨hm, ?_⟩
    intro _ _ heq
    subst heq
    exact .of_leaf hp
  | closed _ _ hp =>
    refine ⟨hm, ?_⟩
    intro _ _ heq
    subst heq
    exact .of_closed hp
  | sequence _ _ hp _ ih =>
    obtain ⟨hm', ha⟩ := ih hm hc
    refine ⟨hm', ?_⟩
    intro hs _ heq
    subst heq
    exact .of_sequence hp (ha hs)
  | choice _ _ hp _ ih =>
    obtain ⟨hm', ha⟩ := ih hm hc
    refine ⟨hm', ?_⟩
    intro hs _ heq
    subst heq
    exact .of_choice hp (ha hs)
  | action _ _ hp _ ih =>
    obtain ⟨hm', ha⟩ := ih hm hc
    refine ⟨hm', ?_⟩
    intro hs _ heq
    subst heq
    exact .intro _ fun found hl => ha hs found (hl.of_action hp)
  | @known _ _ _ _ rule _ v _ _ hp hv =>
    refine ⟨hm, ?_⟩
    intro hs _ heq
    subst heq
    cases v with
    | cyclic => simp [Verdict.openings?] at hs
    | acyclic openings =>
      refine .of_call hp fun body hb => ?_
      have hbody := hp.isBody_iff.mpr (Option.mem_toList.mp hb)
      exact hm rule openings hv body hbody
  | called _ _ hp _ _ ih =>
    obtain ⟨hm', ha⟩ := ih hm hc
    constructor
    · refine hm'.insert fun hs body hb => ?_
      have hcalled := Option.mem_toList.mpr (hp.isBody_iff.mp hb)
      exact ha hs body hcalled
    · intro hs _ heq
      subst heq
      exact .of_call hp (ha hs)
  | sequenceNil =>
    refine ⟨hm, fun _ found hl => ?_⟩
    obtain ⟨before, after, hsplit, -⟩ := hl
    simp at hsplit
  | sequenceNone _ ih => exact ⟨(ih hm hc).1, by simp⟩
  | @sequenceStop _ _ id _ _ _ _ h ho ih =>
    obtain ⟨hm', ha⟩ := ih hm hc
    refine ⟨hm', fun hs found hl => ?_⟩
    rcases Task.leadsTo_cons.mp hl with rfl | ⟨hopt, -⟩
    · exact ha hs _ rfl
    · have hseen := ((h.faithful hc).isOptional_seen id).mpr (.inl hopt)
      simp [ho] at hseen
  | sequenceStep h _ _ ih ih' =>
    obtain ⟨hm', ha⟩ := ih hm hc
    obtain ⟨hm'', hb⟩ := ih' hm' (h.faithful hc)
    refine ⟨hm'', fun hs found hl => ?_⟩
    rcases Task.leadsTo_cons.mp hl with rfl | ⟨-, hl⟩
    · exact ha rfl _ rfl
    · exact hb (by simpa using hs) found hl
  | branchesNil => exact ⟨hm, fun _ found hl => absurd hl List.not_mem_nil⟩
  | @branchesCons _ _ id rest _ a _ b _ h _ ih ih' =>
    obtain ⟨hm', ha⟩ := ih hm hc
    obtain ⟨hm'', hb⟩ := ih' hm' (h.faithful hc)
    refine ⟨hm'', fun hs => ?_⟩
    cases a with
    | none => simp at hs
    | some found =>
      intro other ho
      rcases List.mem_cons.mp ho with rfl | ho
      · exact ha rfl _ rfl
      · exact hb (by simpa using hs) other ho
  | again => exact ⟨hm, by simp⟩
  | outermost _ hn hr hrm =>
    refine ⟨hm, fun _ found hl => absurd hl (hn.not_looksAhead ?_ ?_)⟩
    · rwa [← hc.isRepeatable_seen]
    · rwa [← hc.isRepeatable_seen]
  | followNone _ _ _ _ _ _ ih => exact ⟨(ih hm hc).1, by simp⟩
  | settle _ hn hr hrm hp h ho ih =>
    obtain ⟨hm', ha⟩ := ih hm hc
    rw [hc.isRepeatable_seen] at hr hrm
    refine ⟨hm', fun hs found hl => ?_⟩
    rcases hn.looksAhead hg hr hrm hp hl with hl | ⟨rfl, -⟩
    · exact ha hs found hl
    · cases h
      simp at ho
  | climb _ hn hr hrm hp h _ _ ih ih' =>
    obtain ⟨hm', ha⟩ := ih hm hc
    obtain ⟨hm'', hb⟩ := ih' hm' (h.faithful hc)
    rw [hc.isRepeatable_seen] at hr hrm
    refine ⟨hm'', fun hs found hl => ?_⟩
    rcases hn.looksAhead hg hr hrm hp hl with hl | ⟨rfl, hl⟩
    · exact ha rfl found hl
    · exact hb (by simpa using hs) found hl

namespace Surveys

theorem grounded (hg : g.Forest) {rules : List (RuleId × ParserRule)} {memo memo' : Verdicts}
    (h : Surveys g rules memo memo') (hrules : rules ⊆ g.parserRules) (hm : memo.Grounded g) :
    memo'.Grounded g := by
  refine h.invariant hrules (fun hm hid _ h => ?_) hm
  obtain ⟨hm', ha⟩ := h.grounded hg hm Context.faithful_empty
  refine hm'.insert fun hs body hb => ha hs body (Option.mem_toList.mpr ?_)
  exact (Grammar.isBody_iff hid).mp hb

end Surveys

theorem Grammar.Forest.exists_cyclicRules (hg : g.Forest) :
    ∃ found, g.cyclicRules = .ok found ∧ ∀ {id : RuleId} {rule : ParserRule} {body : ElementId},
      (id, rule) ∈ g.parserRules → rule.body = some body → ⟨id, rule.name⟩ ∉ found →
      g.Grounded body := by
  obtain ⟨memo, hsurvey, hrun⟩ := Grammar.detect_run hg
  refine ⟨_, Grammar.cyclicRules_of_run hrun, fun hid hb hnot => ?_⟩
  obtain ⟨v, hv⟩ := hsurvey.complete hg hid
  cases v with
  | cyclic => exact absurd (Verdicts.mem_reported hid hv rfl) hnot
  | acyclic openings =>
    have hgrounded : memo.Grounded g :=
      hsurvey.grounded hg (List.Subset.refl _) fun rule openings hv => by simp at hv
    exact hgrounded _ openings hv _ ((Grammar.isBody_iff hid).mpr hb)

/-- On a grammar that has been built, every rule is reported from whose body a cycle can be
reached. -/
theorem cyclicRules_complete {name : String} {commands : List Command} {g : Grammar}
    (h : Grammar.build name commands = .ok g) {id : RuleId} {rule : ParserRule}
    (hid : (id, rule) ∈ g.parserRules) {body cyclic : ElementId} (hb : rule.body = some body)
    (hreach : Relation.ReflTransGen g.Leads body cyclic)
    (hcycle : Relation.TransGen g.Leads cyclic cyclic) :
    ∃ found, g.cyclicRules = .ok found ∧ ⟨id, rule.name⟩ ∈ found := by
  obtain ⟨found, hrun, hgrounded⟩ := (Grammar.forest_of_build h).exists_cyclicRules
  refine ⟨found, hrun, ?_⟩
  by_contra hnot
  exact (hgrounded hid hb hnot).not_cycle hreach hcycle

/-- The rules `A: 'x'? B` and `B: {T} A`, left recursive behind an optional token and an action, and
`C: {T} 'c'`, which is not. -/
def hidden : Grammar where
  name := "G"
  elements := #[⟨.keyword "x", .optional, some ⟨2⟩⟩, ⟨.ruleCall "B" (some ⟨1⟩) [], .once, some ⟨2⟩⟩,
    ⟨.group [⟨0⟩, ⟨1⟩], .once, none⟩, ⟨.action "T" none, .once, some ⟨5⟩⟩,
    ⟨.ruleCall "A" (some ⟨0⟩) [], .once, some ⟨5⟩⟩, ⟨.group [⟨3⟩, ⟨4⟩], .once, none⟩,
    ⟨.action "T" none, .once, some ⟨8⟩⟩, ⟨.keyword "c", .once, some ⟨8⟩⟩,
    ⟨.group [⟨6⟩, ⟨7⟩], .once, none⟩]
  rules := #[.parser { name := "A", body := some ⟨2⟩ }, .parser { name := "B", body := some ⟨5⟩ },
    .parser { name := "C", body := some ⟨8⟩ }]

theorem build_hidden : Grammar.build "G" [.add (.keyword "x"), .setCardinality ⟨0⟩ .optional,
    .add (.ruleCall "B" none []), .add (.group [⟨0⟩, ⟨1⟩]),
    .declare (.parser { name := "A", body := some ⟨2⟩ }), .add (.action "T" none),
    .add (.ruleCall "A" none []), .add (.group [⟨3⟩, ⟨4⟩]),
    .declare (.parser { name := "B", body := some ⟨5⟩ }), .add (.action "T" none),
    .add (.keyword "c"), .add (.group [⟨6⟩, ⟨7⟩]),
    .declare (.parser { name := "C", body := some ⟨8⟩ })] = .ok hidden := by
  decide +kernel

theorem cyclicRules_hidden : hidden.cyclicRules = .ok [⟨⟨0⟩, "A"⟩, ⟨⟨1⟩, "B"⟩] := by
  decide +kernel

theorem cycle_hidden : Relation.TransGen hidden.Leads ⟨2⟩ ⟨2⟩ := by
  have h1 : hidden.Leads ⟨2⟩ ⟨1⟩ := @Grammar.Leads.member _ _ _ [⟨0⟩] _ [] rfl rfl (by decide)
  have h2 : hidden.Leads ⟨1⟩ ⟨5⟩ := .body rfl rfl
  have h3 : hidden.Leads ⟨5⟩ ⟨3⟩ := @Grammar.Leads.member _ _ _ [] _ [⟨4⟩] rfl rfl (by simp)
  have h4 : hidden.Leads ⟨3⟩ ⟨4⟩ := .lookahead rfl rfl
    (@Grammar.LooksAhead.following _ _ _ _ _ _ [] [] [] rfl rfl rfl (by simp))
  have h5 : hidden.Leads ⟨4⟩ ⟨2⟩ := .body rfl rfl
  exact ((((Relation.TransGen.single h1).tail h2).tail h3).tail h4).tail h5

/-- The left recursive rules are reported, and `C` is not. -/
theorem cyclicRules_complete_hidden :
    hidden.cyclicRules = .ok [⟨⟨0⟩, "A"⟩, ⟨⟨1⟩, "B"⟩] ∧
      ∃ found, hidden.cyclicRules = .ok found ∧ ⟨⟨0⟩, "A"⟩ ∈ found := by
  have hid : (⟨⟨0⟩, { name := "A", body := some ⟨2⟩ }⟩ : RuleId × ParserRule) ∈
      hidden.parserRules := by decide
  exact ⟨cyclicRules_hidden, cyclicRules_complete build_hidden hid rfl .refl cycle_hidden⟩

end GrammarLookahead
