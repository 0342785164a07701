import GrammarLookahead.Proofs.LeftRecursion.Survey

namespace GrammarLookahead

namespace Grammar

/-- Lookahead behind an element may come to the other one, whatever it can skip on the way. -/
inductive MayLookAhead (g : Grammar) : ElementId → ElementId → Prop
  | own {id} : (g.written id).isRepeatable = true → MayLookAhead g id id
  | member {id member group?} : g.groupAround id = .ok (member, group?) →
      (g.written member).isRepeatable = true → MayLookAhead g id member
  | following {id member group found before after} :
      g.groupAround id = .ok (member, some group) →
      g.Plays group (.sequence (before ++ member :: after)) → found ∈ after →
      MayLookAhead g id found
  | climb {id member group found} : g.groupAround id = .ok (member, some group) →
      MayLookAhead g group found → MayLookAhead g id found

/-- Exploring an element may come to the other one, whatever can be skipped on the way: unlike
`Leads`, this does not stop at a mandatory element. -/
inductive MayLead (g : Grammar) : ElementId → ElementId → Prop
  | sequence {id members found} : g.Plays id (.sequence members) → found ∈ members →
      MayLead g id found
  | choice {id branches found} : g.Plays id (.choice branches) → found ∈ branches →
      MayLead g id found
  | call {id rule body? found} : g.Plays id (.call rule body?) → found ∈ body? → MayLead g id found
  | action {id found} : g.Plays id .action → g.MayLookAhead id found → MayLead g id found

/-- The element may lead to one that may lead back to itself. -/
def Recurs (g : Grammar) (id : ElementId) : Prop :=
  ∃ cyclic, Relation.ReflTransGen g.MayLead id cyclic ∧ Relation.TransGen g.MayLead cyclic cyclic

theorem Recurs.of_mayLead {g : Grammar} {id found : ElementId} (hl : g.MayLead id found)
    (h : g.Recurs found) : g.Recurs id := by
  obtain ⟨cyclic, hr, hc⟩ := h
  exact ⟨cyclic, .head hl hr, hc⟩

end Grammar

/-- Only rules that recur are cyclic. -/
def Verdicts.Recurrent (g : Grammar) (memo : Verdicts) : Prop :=
  ∀ rule r, g.rule? rule = some r → memo[rule]? = some .cyclic → ∃ body ∈ r.body?, g.Recurs body

variable {g : Grammar}

theorem Verdicts.Recurrent.insert {memo : Verdicts} (h : memo.Recurrent g) {rule : RuleId} {r : Rule}
    {a : Option (List ElementId)} (hr : g.rule? rule = some r)
    (ha : a = none → ∃ body ∈ r.body?, g.Recurs body) :
    Verdicts.Recurrent g (memo.insert rule (.ofOpenings? a)) := by
  intro other r' hr' hv
  rcases cases_of_insert hv with ⟨rfl, hcyclic⟩ | hv
  · cases hr.symm.trans hr'
    cases a with
    | none => exact ha rfl
    | some found => cases hcyclic
  · exact h other r' hr' hv

namespace Task

/-- What a task may lead to first. -/
def MayLeadTo (g : Grammar) : Task → ElementId → Prop
  | .openings id, found => found = id
  | .sequence ids, found | .branches ids, found => found ∈ ids
  | .continuations id, found => g.MayLookAhead id found

/-- The task may lead to an element that recurs. -/
def Recurs (g : Grammar) (task : Task) : Prop :=
  ∃ found, task.MayLeadTo g found ∧ g.Recurs found

/-- What is on the path may lead to all that the task may lead to. -/
def Trails (g : Grammar) (path : List ElementId) (task : Task) : Prop :=
  ∀ id ∈ path, ∀ found, task.MayLeadTo g found → Relation.TransGen g.MayLead id found

variable {task task' : Task} {path : List ElementId} {id : ElementId} {rest : List ElementId}

theorem Recurs.imp (h : task'.Recurs g)
    (hl : ∀ found, task'.MayLeadTo g found → task.MayLeadTo g found) : task.Recurs g := by
  obtain ⟨found, hf, hrecurs⟩ := h
  exact ⟨found, hl found hf, hrecurs⟩

theorem Recurs.openings (h : task.Recurs g)
    (hl : ∀ found, task.MayLeadTo g found → g.MayLead id found) : Recurs g (.openings id) := by
  obtain ⟨found, hf, hrecurs⟩ := h
  exact ⟨id, rfl, hrecurs.of_mayLead (hl found hf)⟩

theorem Trails.imp (h : task.Trails g path)
    (hl : ∀ found, task'.MayLeadTo g found → task.MayLeadTo g found) : task'.Trails g path :=
  fun other ho found hf => h other ho found (hl found hf)

theorem Trails.cons (h : Trails g path (.openings id))
    (hl : ∀ found, task.MayLeadTo g found → g.MayLead id found) : task.Trails g (id :: path) := by
  intro other ho found hf
  rcases List.mem_cons.mp ho with rfl | ho
  · exact .single (hl found hf)
  · exact (h other ho id rfl).tail (hl found hf)

theorem Trails.recurs (h : task.Trails g path) (hid : id ∈ path) (hl : task.MayLeadTo g id) :
    task.Recurs g :=
  ⟨id, hl, id, .refl, h id hid id hl⟩

theorem mayLeadTo_head (found : ElementId) (hf : MayLeadTo g (.openings id) found) :
    found ∈ id :: rest :=
  hf ▸ List.mem_cons_self

end Task

/-- An exploration gives up only where it may come to an element again that it is exploring. -/
theorem Explores.recurs {depth path task s a t} (h : Explores g depth path task s a t)
    (hc : s.context.Faithful g) (hm : s.memo.Recurrent g) (hpath : task.Trails g path) :
    t.memo.Recurrent g ∧ (a = none → task.Recurs g) := by
  induction h with
  | revisit hid => exact ⟨hm, fun _ => hpath.recurs hid rfl⟩
  | leaf | closed | sequenceNil | branchesNil | outermost => exact ⟨hm, nofun⟩
  | @sequence _ _ id _ members _ _ _ _ hp _ ih =>
    have hl : ∀ found, Task.MayLeadTo g (.sequence members) found → g.MayLead id found :=
      fun _ => .sequence hp
    exact (ih hc hm (hpath.cons hl)).imp_right fun ha hnone => (ha hnone).openings hl
  | @choice _ _ id _ ids _ _ _ _ hp _ ih =>
    have hl : ∀ found, Task.MayLeadTo g (.branches ids) found → g.MayLead id found :=
      fun _ => .choice hp
    exact (ih hc hm (hpath.cons hl)).imp_right fun ha hnone => (ha hnone).openings hl
  | @action _ _ id _ _ _ _ _ hp _ ih =>
    have hl : ∀ found, Task.MayLeadTo g (.continuations id) found → g.MayLead id found :=
      fun _ => .action hp
    exact (ih hc hm (hpath.cons hl)).imp_right fun ha hnone => (ha hnone).openings hl
  | @known _ _ id _ rule _ v _ _ hp hv =>
    refine ⟨hm, fun hnone => ?_⟩
    obtain ⟨r, hr, rfl⟩ := hp.rule_of_call
    cases v with
    | cyclic =>
      obtain ⟨body, hb, hrecurs⟩ := hm rule r hr hv
      exact ⟨id, rfl, hrecurs.of_mayLead (.call hp hb)⟩
    | acyclic openings => cases hnone
  | @called _ _ id _ _ _ _ _ _ _ hp _ _ ih =>
    obtain ⟨r, hr, rfl⟩ := hp.rule_of_call
    have hl : ∀ found, Task.MayLeadTo g (.branches r.body?.toList) found → g.MayLead id found :=
      fun _ hf => .call hp (Option.mem_toList.mp hf)
    obtain ⟨hm', ha⟩ := ih hc hm (hpath.cons hl)
    refine ⟨hm'.insert hr fun hnone => ?_, fun hnone => (ha hnone).openings hl⟩
    obtain ⟨body, hb, hrecurs⟩ := ha hnone
    exact ⟨body, Option.mem_toList.mp hb, hrecurs⟩
  | sequenceNone _ ih =>
    exact (ih hc hm (hpath.imp Task.mayLeadTo_head)).imp_right fun ha hnone =>
      (ha hnone).imp Task.mayLeadTo_head
  | sequenceStop _ _ ih => exact ⟨(ih hc hm (hpath.imp Task.mayLeadTo_head)).1, nofun⟩
  | sequenceStep h _ _ ih ih' =>
    obtain ⟨hm', -⟩ := ih hc hm (hpath.imp Task.mayLeadTo_head)
    obtain ⟨hm'', hb⟩ := ih' (h.faithful hc) hm' (hpath.imp fun _ => List.mem_cons_of_mem _)
    exact ⟨hm'', fun hnone =>
      (hb (Option.map_eq_none_iff.mp hnone)).imp fun _ => List.mem_cons_of_mem _⟩
  | @branchesCons _ _ _ _ _ a _ b _ h _ ih ih' =>
    obtain ⟨hm', ha⟩ := ih hc hm (hpath.imp Task.mayLeadTo_head)
    obtain ⟨hm'', hb⟩ := ih' (h.faithful hc) hm' (hpath.imp fun _ => List.mem_cons_of_mem _)
    refine ⟨hm'', fun hnone => ?_⟩
    cases a with
    | none => exact (ha rfl).imp Task.mayLeadTo_head
    | some found =>
      exact (hb (Option.map_eq_none_iff.mp hnone)).imp fun _ => List.mem_cons_of_mem _
  | again hpos hn hr =>
    refine ⟨hm, fun _ => ?_⟩
    rw [hc.isRepeatable_seen, hc.isRepeatable_seen] at hr
    rcases hr with hr | hr
    · exact hpath.recurs hpos.mem (.own hr)
    · have hmem := hpos.coherent.mem_of_encloses hn.encloses hpos.mem
      exact hpath.recurs hmem (.member hn.answer hr)
  | followNone _ hn _ _ hp _ ih =>
    have hl := fun found (hf : found ∈ _) => Grammar.MayLookAhead.following hn.answer hp hf
    exact (ih hc hm (hpath.imp hl)).imp_right fun ha hnone => (ha hnone).imp hl
  | settle _ hn _ _ hp _ _ ih =>
    exact ⟨(ih hc hm (hpath.imp fun _ => .following hn.answer hp)).1, nofun⟩
  | climb _ hn _ _ hp h _ _ ih ih' =>
    obtain ⟨hm', -⟩ := ih hc hm (hpath.imp fun _ => .following hn.answer hp)
    obtain ⟨hm'', hb⟩ := ih' (h.faithful hc) hm' (hpath.imp fun _ => .climb hn.answer)
    exact ⟨hm'', fun hnone => (hb (Option.map_eq_none_iff.mp hnone)).imp fun _ => .climb hn.answer⟩

theorem Surveys.recurrent {rules : List (RuleId × ParserRule)} {memo memo' : Verdicts}
    (h : Surveys g rules memo memo') (hrules : rules ⊆ g.parserRules) (hm : memo.Recurrent g) :
    memo'.Recurrent g := by
  refine h.invariant (P := Verdicts.Recurrent g) hrules (fun hm hid _ hx => ?_) hm
  obtain ⟨hm', ha⟩ := hx.recurs Context.faithful_empty hm fun _ ho => absurd ho List.not_mem_nil
  obtain ⟨r, hr, hbody⟩ := Grammar.exists_rule_of_mem hid
  refine hm'.insert hr fun hnone => ?_
  obtain ⟨body, hb, hrecurs⟩ := ha hnone
  exact ⟨body, hbody ▸ Option.mem_toList.mp hb, hrecurs⟩

/-- Only rules that recur are reported. -/
theorem Grammar.Forest.recurs_of_cyclicRules (hg : g.Forest) {cyclic : List CyclicRule}
    (h : g.cyclicRules = .ok cyclic) {issue : CyclicRule} (hi : issue ∈ cyclic) :
    ∃ rule body, g.parserRule? issue.rule = some rule ∧ issue.name = rule.name ∧
      rule.body = some body ∧ g.Recurs body := by
  obtain ⟨memo, rule, hsurvey, hid, hname, hv⟩ := verdict_of_cyclicRules hg h hi
  obtain ⟨r, hr, hbody⟩ := exists_rule_of_mem hid
  have hnone : Verdicts.Recurrent g ∅ := fun _ _ _ hv => by simp at hv
  obtain ⟨body, hb, hrecurs⟩ := hsurvey.recurrent (List.Subset.refl _) hnone _ r hr hv
  exact ⟨rule, body, mem_parserRules.mp hid, hname, hbody ▸ hb, hrecurs⟩

end GrammarLookahead
