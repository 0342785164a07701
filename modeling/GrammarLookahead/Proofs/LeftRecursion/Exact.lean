import GrammarLookahead.Proofs.LeftRecursion.Plain

namespace GrammarLookahead

variable {g : Grammar}

theorem Task.direct_or_avoids (hg : g.Forest) {rule : RuleId} {body? : Option ElementId}
    (hb : ∀ body ∈ body?, g.IsBody rule body) : Task.Direct g (.branches body?.toList) ∨
      Task.Avoids g g.Plain (.branches body?.toList) ∧ ¬ ∀ body ∈ body?, g.Plain body := by
  by_cases hplain : ∀ body ∈ body?, g.Plain body
  · refine .inl ⟨fun body hf => ?_, by simp⟩
    have hbody := Option.mem_toList.mp hf
    exact ⟨rule, body, hb body hbody, hplain body hbody, .refl⟩
  · refine .inr ⟨fun body hf hin => hplain fun body' hbody' => ?_, hplain⟩
    obtain rfl := Option.mem_unique (Option.mem_toList.mp hf) hbody'
    exact hg.of_within_body (hb body hbody') hin

/-- Visits behind an action are forgotten, but none of them was in a plain rule that is still
explored. -/
theorem Noted.restore (hg : g.Forest) {depth path id s a t k}
    (h : Explores g depth path (.continuations id) s a t) (hid : ¬ g.InPlainRule id)
    (hk : Noted g t k) : Noted g (s.restore t) k := by
  intro hin
  have hadv := h.advance hg
  rcases hk hin with hv | ⟨rule, body, hb, he, hm, hn⟩
  · rcases hadv.reached k hv with hs | ⟨target, hl, -, he⟩ | ⟨rule, body, hb, hn, he, hm⟩
    · exact .inl hs
    · exact absurd (hg.within_of_later hl (hg.within_enclosing hin he)) hid
    · exact .inr ⟨rule, body, hb, he, hm, hn⟩
  · exact .inr ⟨rule, body, hb, he, hm, fun hv => hn (hadv.visited body hv)⟩

/-- In rules that lead to an action, an exploration comes to know only of elements that are noted,
and the verdicts that it leaves on other rules are right: it knows of nothing in a rule that is
still to be explored, so a called rule that leads to no action is explored as it would be by itself.
-/
theorem Explores.knows_outside (hg : g.Forest) {depth path task s a t}
    (h : Explores g depth path task s a t) (htask : task.Avoids g g.Plain)
    (hpath : ∀ id ∈ path, ¬ g.InPlainRule id) (hm : s.memo.Listing g) (hc : s.context.Faithful g)
    (hs : Orderly g (Noted g) s) (he : s.memo.ExactOnPlain g) :
    Knows g (Noted g) t a ∧ t.memo.ExactOnPlain g := by
  have hP : Stable g (Noted g) := Noted.stable
  induction h with
  | revisit | again => exact ⟨.none hs, he⟩
  | leaf hv hn _ => exact ⟨.singleton (hs.enter hP hv hn) (Noted.enter _ _), he⟩
  | closed hv hn _ => exact ⟨.nil (hs.enter hP hv hn), he⟩
  | sequence hv hn hp h ih =>
    obtain ⟨hk, he'⟩ := ih (htask.sequence hg hp) (htask.cons hpath) hm hc (hs.enter hP hv hn) he
    exact ⟨hk.handOn hP (h.leaves hm).1, he'⟩
  | choice hv hn hp h ih =>
    obtain ⟨hk, he'⟩ := ih (htask.choice hg hp) (htask.cons hpath) hm hc (hs.enter hP hv hn) he
    exact ⟨hk.handOn hP (h.leaves hm).1, he'⟩
  | action hv hn _ h ih =>
    obtain ⟨hk, he'⟩ := ih htask (htask.cons hpath) hm hc (hs.enter hP hv hn) he
    have hk' := hk.restore fun _ hnoted => hnoted.restore hg h (htask _ List.mem_cons_self)
    exact ⟨hk'.handOn hP (h.leaves hm).1, he'⟩
  | known hv hn _ hmv => exact ⟨.verdict hs hP hv hn hmv, he⟩
  | @called _ _ id s rule _ a t hv hn hp _ h ih =>
    obtain ⟨r, hr, rfl⟩ := hp.rule_of_call
    have hpath' := htask.cons hpath
    have hstep : Knows g (Noted g) t a ∧ t.memo.ExactOnPlain g ∧
        ((∀ body ∈ r.body?, g.Plain body) → Task.Explained g (.branches r.body?.toList) a) := by
      rcases Task.direct_or_avoids hg fun body hb => hp.isBody_iff.mpr hb with hd | ⟨ho, hnot⟩
      · obtain ⟨he', hexp⟩ := h.exact hg hd hm (hs.enter hP hv hn) hc he
          fun other hother hin => absurd hin (hpath' other hother)
        exact ⟨h.knows_direct hg hd hm hc (hs.enter hP hv hn), he', fun _ => hexp⟩
      · obtain ⟨hk, he'⟩ := ih ho hpath' hm hc (hs.enter hP hv hn) he
        exact ⟨hk, he', fun hplain => absurd hplain hnot⟩
    obtain ⟨hk, he', hexp⟩ := hstep
    exact ⟨(hk.handOn hP (h.leaves hm).1).memoize hP, he'.insert hr hexp⟩
  | sequenceNil | branchesNil | outermost => exact ⟨.nil hs, he⟩
  | sequenceNone _ ih =>
    obtain ⟨hk, he'⟩ := ih (htask.of_mem List.mem_cons_self) hpath hm hc hs he
    exact ⟨.none hk.toOrderly, he'⟩
  | sequenceStop _ _ ih => exact ih (htask.of_mem List.mem_cons_self) hpath hm hc hs he
  | sequenceStep h _ hr ih ih' | branchesCons h hr ih ih' =>
    obtain ⟨hk, he'⟩ := ih (htask.of_mem List.mem_cons_self) hpath hm hc hs he
    obtain ⟨hk', he''⟩ := ih' (htask.of_subset (List.subset_cons_self _ _)) hpath (h.leaves hm).2
      (h.faithful hc) hk.toOrderly he'
    exact ⟨hk.both hP (hr.advance hg) hk', he''⟩
  | followNone _ hn _ _ hp _ ih =>
    obtain ⟨hk, he'⟩ := ih (htask.following hg hn hp) hpath hm hc hs he
    exact ⟨.none hk.toOrderly, he'⟩
  | settle _ hn _ _ hp _ _ ih => exact ih (htask.following hg hn hp) hpath hm hc hs he
  | climb _ hn _ _ hp h _ hr ih ih' =>
    obtain ⟨hk, he'⟩ := ih (htask.following hg hn hp) hpath hm hc hs he
    obtain ⟨hk', he''⟩ :=
      ih' (htask.around hn hp) hpath (h.leaves hm).2 (h.faithful hc) hk.toOrderly he'
    exact ⟨hk.both hP (hr.advance hg) hk', he''⟩

theorem Verdicts.Rooted.noted_start {memo : Verdicts} (h : memo.Rooted g) :
    Orderly g (Noted g) (.start memo) where
  memo hm id hid _ := by
    obtain ⟨owner, body, hb, he, ho⟩ := h _ _ hm id hid
    exact .inr ⟨owner, body, hb, he, ho, by simp [Exploration.start]⟩
  marks hk := absurd hk (Context.not_marks_empty _)

/-- What is known of the memo when rules are explored one after the other. -/
structure Verdicts.RightOnPlain (g : Grammar) (memo : Verdicts) : Prop where
  listing : memo.Listing g
  rooted : memo.Rooted g
  exact : memo.ExactOnPlain g

/-- What is known of the memo if no rule leads to an action. -/
structure Verdicts.Right (g : Grammar) (memo : Verdicts) : Prop where
  listing : memo.Listing g
  rooted : memo.Rooted g
  exact : memo.Exact g

theorem Verdicts.RightOnPlain.explored (hg : g.Forest) {memo : Verdicts} (h : memo.RightOnPlain g)
    {id : RuleId} {rule : ParserRule} (hid : (id, rule) ∈ g.parserRules) {a t}
    (hx : Explores g g.explorationDepth [] (.branches rule.body.toList) (.start memo) a t) :
    Verdicts.RightOnPlain g (t.memoize id a).memo := by
  have hstart := h.rooted.noted_start
  obtain ⟨ha, ht⟩ := hx.leaves h.listing
  obtain ⟨r, hr, hbody⟩ := Grammar.exists_rule_of_mem hid
  refine ⟨ht.insert ha, h.rooted.explored hg h.listing hid hx, ?_⟩
  rcases Task.direct_or_avoids hg fun body hb => (Grammar.isBody_iff hid).mpr hb with
    hd | ⟨ho, hnot⟩
  · obtain ⟨hexact, hexp⟩ := hx.exact hg hd h.listing hstart Context.faithful_empty h.exact
      fun other ho => absurd ho List.not_mem_nil
    exact hexact.insert hr fun _ => hbody ▸ hexp
  · obtain ⟨-, hexact⟩ := hx.knows_outside hg ho (by simp) h.listing Context.faithful_empty hstart
      h.exact
    exact hexact.insert hr fun hplain => absurd (hbody ▸ hplain) hnot

theorem Surveys.rightOnPlain (hg : g.Forest) {rules : List (RuleId × ParserRule)}
    {memo memo' : Verdicts} (h : Surveys g rules memo memo') (hrules : rules ⊆ g.parserRules)
    (hm : memo.RightOnPlain g) : memo'.RightOnPlain g :=
  h.invariant hrules (fun hm hid _ hx => hm.explored hg hid hx) hm

theorem Verdicts.rightOnPlain_empty : Verdicts.RightOnPlain g ∅ where
  listing := listing_empty
  rooted := rooted_empty
  exact _ hm := by simp at hm

theorem Grammar.Forest.reachesCycle_of_cyclicRules (hg : g.Forest) {cyclic : List CyclicRule}
    (h : g.cyclicRules = .ok cyclic) {issue : CyclicRule} (hi : issue ∈ cyclic) :
    ∃ rule body, g.parserRule? issue.rule = some rule ∧ issue.name = rule.name ∧
      rule.body = some body ∧ (g.Plain body → g.ReachesCycle body) := by
  obtain ⟨memo, rule, hsurvey, hid, hname, hv⟩ := verdict_of_cyclicRules hg h hi
  have hright := hsurvey.rightOnPlain hg (List.Subset.refl _) Verdicts.rightOnPlain_empty
  obtain ⟨r, hget, hbody⟩ := exists_rule_of_mem hid
  have hcyclic := hright.exact hget hv
  rw [hbody] at hcyclic
  cases hb : rule.body with
  | none =>
    obtain ⟨body, hbody, -⟩ := hcyclic (by simp [hb])
    simp [hb] at hbody
  | some body =>
    refine ⟨rule, body, mem_parserRules.mp hid, hname, hb, fun hplain => ?_⟩
    obtain ⟨_, hbody, hcycle⟩ := hcyclic (by simpa [hb] using hplain)
    obtain rfl := Option.some.inj (hb.symm.trans hbody)
    exact hcycle

theorem Surveys.right (hg : g.Forest) (hfree : g.ActionFree)
    {rules : List (RuleId × ParserRule)} {memo memo' : Verdicts}
    (h : Surveys g rules memo memo') (hrules : rules ⊆ g.parserRules) (hm : memo.Right g) :
    memo'.Right g := by
  obtain ⟨hlisting, hrooted, hexact⟩ := h.rightOnPlain hg hrules
    ⟨hm.listing, hm.rooted, fun hr hv _ => hm.exact hr hv⟩
  exact ⟨hlisting, hrooted, fun hr hv => hexact hr hv fun body _ => hfree.plain body⟩

theorem Verdicts.right_empty : Verdicts.Right g ∅ where
  listing := listing_empty
  rooted := rooted_empty
  exact _ hm := by simp at hm

def Grammar.ListsBody (g : Grammar) : Option ElementId → List ElementId → Prop
  | none, l => l = []
  | some body, l => g.Lists (.openings body) l

theorem Grammar.lists_toList_iff {body? : Option ElementId} {l : List ElementId} :
    g.Lists (.branches body?.toList) l ↔ g.ListsBody body? l := by
  cases body? with
  | none =>
    constructor
    · intro heq
      cases heq
      rfl
    · intro heq
      subst heq
      exact .branchesNil
  | some body =>
    constructor
    · intro h
      cases h with
      | branchesCons h hnil =>
        cases hnil
        rwa [List.append_nil]
    · intro h
      exact List.append_nil l ▸ .branchesCons h .branchesNil

/-- On a grammar that has been built and has no actions, detection leaves a verdict on every parser
rule: it calls a rule cyclic if and only if a cycle can be reached from its body, and for every other
rule it has the list of what the body starts with. -/
theorem detect_exact {name : String} {commands : List Command} {g : Grammar}
    (h : Grammar.build name commands = .ok g) (hfree : g.ActionFree) :
    ∃ found memo, g.detect.run ∅ = .ok (found, memo) ∧
      ∀ id rule, (id, rule) ∈ g.parserRules → ∃ v, memo[id]? = some v ∧
        (v = .cyclic ↔ ∃ body ∈ rule.body, g.ReachesCycle body) ∧
        ∀ l, v = .acyclic l ↔ g.ListsBody rule.body l := by
  have hg := Grammar.forest_of_build h
  obtain ⟨memo, hsurvey, hrun⟩ := Grammar.detect_run hg
  refine ⟨_, memo, hrun, fun id rule hid => ?_⟩
  obtain ⟨v, hv⟩ := hsurvey.complete hg hid
  obtain ⟨r, hr, hrule⟩ := Option.bind_eq_some_iff.mp (Grammar.mem_parserRules.mp hid)
  have hbody : r.body? = rule.body := by simp [Rule.body?, hrule]
  have hexact := (hsurvey.right hg hfree (List.Subset.refl _) Verdicts.right_empty).exact hr hv
  rw [hbody] at hexact
  have hlists : ∀ l, g.Lists (.branches rule.body.toList) l →
      ∀ body ∈ rule.body, ¬ g.ReachesCycle body := fun l hl body hb =>
    (hl.grounded body (Option.mem_toList.mpr hb)).not_reachesCycle
  refine ⟨v, hv, ?_, fun l => ?_⟩
  · cases v with
    | cyclic => exact ⟨fun _ => hexact, fun _ => rfl⟩
    | acyclic openings =>
      constructor
      · rintro ⟨⟩
      · rintro ⟨body, hb, hc⟩
        exact absurd hc (hlists openings hexact body hb)
  · rw [← Grammar.lists_toList_iff]
    cases v with
    | cyclic =>
      constructor
      · rintro ⟨⟩
      · intro hl
        obtain ⟨body, hb, hc⟩ := hexact
        exact absurd hc (hlists l hl body hb)
    | acyclic openings =>
      constructor
      · rintro ⟨⟩
        exact hexact
      · exact fun hl => congrArg Verdict.acyclic (Grammar.Lists.unique hexact hl)

/-- The rules `A: B? 'a'` and `B: 'b' A?`, which call each other behind a token. -/
def entwined : Grammar where
  name := "G"
  elements := #[⟨.ruleCall "B" (some ⟨1⟩) [], .optional, some ⟨2⟩⟩, ⟨.keyword "a", .once, some ⟨2⟩⟩,
    ⟨.group [⟨0⟩, ⟨1⟩], .once, none⟩, ⟨.keyword "b", .once, some ⟨5⟩⟩,
    ⟨.ruleCall "A" (some ⟨0⟩) [], .optional, some ⟨5⟩⟩, ⟨.group [⟨3⟩, ⟨4⟩], .once, none⟩]
  rules := #[.parser { name := "A", body := some ⟨2⟩ }, .parser { name := "B", body := some ⟨5⟩ }]

theorem build_entwined : Grammar.build "G" [.add (.ruleCall "B" none []),
    .setCardinality ⟨0⟩ .optional, .add (.keyword "a"), .add (.group [⟨0⟩, ⟨1⟩]),
    .declare (.parser { name := "A", body := some ⟨2⟩ }), .add (.keyword "b"),
    .add (.ruleCall "A" none []), .setCardinality ⟨4⟩ .optional, .add (.group [⟨3⟩, ⟨4⟩]),
    .declare (.parser { name := "B", body := some ⟨5⟩ })] = .ok entwined := by
  decide +kernel

theorem actionFree_entwined : entwined.ActionFree := by
  decide

theorem detect_exact_entwined : ∃ found memo, entwined.detect.run ∅ = .ok (found, memo) ∧
    ∀ id rule, (id, rule) ∈ entwined.parserRules → ∃ v, memo[id]? = some v ∧
      (v = .cyclic ↔ ∃ body ∈ rule.body, entwined.ReachesCycle body) ∧
      ∀ l, v = .acyclic l ↔ entwined.ListsBody rule.body l :=
  detect_exact build_entwined actionFree_entwined

end GrammarLookahead
