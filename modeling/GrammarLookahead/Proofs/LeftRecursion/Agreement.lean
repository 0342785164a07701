import GrammarLookahead.Proofs.LeftRecursion.InStep

namespace GrammarLookahead

/-- What lookahead finds for a rule, in a context in which it has not found it before, is what the
verdict lists. -/
def Verdicts.Agrees (g : Grammar) (memo : Verdicts) : Prop :=
  ∀ rule r openings, g.rule? rule = some r → memo[rule]? = some (.acyclic openings) →
    ∀ before o l p, o.Earned g before → Finds g (.branches r.body?.toList) o l p →
      g.Undoubled (before ++ l) → Inquiry.All g g.Calm (.branches r.body?.toList) o → l = openings

variable {g : Grammar} {depth : Nat} {path : List ElementId} {task : Task} {s t : Exploration}
  {id : ElementId} {found before l : List ElementId} {o p : Context}

theorem Explores.not_begun (hg : g.Forest) {rule : RuleId} {body? : Option ElementId}
    (h : Explores g depth path (.branches body?.toList) s (some found) t)
    (hb : ∀ body, g.IsBody rule body ↔ body ∈ body?) (hm : rule ∉ s.memo) :
    ∀ body ∈ body?, ¬ Begun g s body := by
  intro body hbody hbegun
  obtain rfl := hbody
  rcases hbegun with hv | ⟨rule', hb', hm'⟩
  · generalize ha : some found = a at h
    cases h with
    | branchesCons h _ =>
      obtain ⟨_, rfl, -⟩ := Option.bind_eq_some_iff.mp ha.symm
      exact h.not_visited hv
  · exact hm (hg.owner ((hb body).mpr rfl) hb' ▸ hm')

theorem Task.Agrees.verdict (hg : g.Forest) {rule : RuleId} {body? : Option ElementId}
    (h : Task.Agrees g (.branches body?.toList) s found t)
    (hx : Explores g depth path (.branches body?.toList) s (some found) t)
    (hs : Orderly g (Known g) s) (hb : ∀ body, g.IsBody rule body ↔ body ∈ body?)
    (hm : rule ∉ s.memo) (ho : o.Earned g before)
    (hfinds : Finds g (.branches body?.toList) o l p) (hund : g.Undoubled (before ++ l))
    (hcalm : Inquiry.All g g.Calm (.branches body?.toList) o) : l = found := by
  have hfollows : Follows g (Begun g s) before s o :=
    ⟨ho, fun _ hbegun => hbegun, fun k hk => .inr (hs.marks hk).2⟩
  refine (h _ before o l p hfollows ?_ hfinds hund hcalm).1
  intro body hbody hin
  have hbody' := Option.mem_toList.mp hbody
  exact hx.not_begun hg hb hm body hbody' (hg.of_within_body ((hb body).mpr hbody') hin)

theorem Verdicts.Agrees.insert {memo : Verdicts} (h : memo.Agrees g) {rule : RuleId} {r : Rule}
    {a : Option (List ElementId)} (hr : g.rule? rule = some r)
    (ha : ∀ found, a = some found → ∀ before o l p, o.Earned g before →
      Finds g (.branches r.body?.toList) o l p → g.Undoubled (before ++ l) →
      Inquiry.All g g.Calm (.branches r.body?.toList) o → l = found) :
    Verdicts.Agrees g (memo.insert rule (.ofOpenings? a)) := by
  intro other r' openings hr' hv
  rcases acyclic_of_insert hv with ⟨rfl, hanswer⟩ | hv
  · cases hr.symm.trans hr'
    exact ha openings hanswer
  · exact h other r' openings hr' hv

theorem Verdicts.Agrees.known {rule : RuleId} {body? : Option ElementId} {v : Verdict}
    (h : s.memo.Agrees g) (hp : g.Plays id (.call rule body?)) (hv : s.memo[rule]? = some v)
    (hf : v.openings? = some found) : Task.Agrees g (.openings id) s found (s.enter id) := by
  intro P before o l p hfollows _ hfinds hund hcalm
  obtain ⟨r, hr, rfl⟩ := hp.rule_of_call
  have hu : g.Unwraps id (.branches r.body?.toList) := .call hp
  cases v with
  | cyclic => cases hf
  | acyclic openings =>
    cases hf
    cases hfinds with
    | leaf hp' => exact absurd hp' hu.not_leaf
    | closed hp' => exact absurd hp' hu.not_closed
    | unwrap hu' hfinds =>
      cases hu.unique hu'
      refine ⟨h rule r _ hr hv before o _ _ hfollows.earned hfinds hund
        (hcalm.unwrap Grammar.Calm.opens hu), fun hfree => ?_⟩
      exact absurd hp (hfree id o .openings _ .refl rule _)

/-- Lookahead goes in step with every exploration that has an answer, and with the verdicts that an
exploration leaves, although it explores a called rule anew, in the context of that moment, and
hands the cardinality of the call on. -/
theorem Explores.agrees (hg : g.Forest) {a : Option (List ElementId)}
    (h : Explores g depth path task s a t) (hm : s.memo.Listing g) (hc : s.context.Faithful g)
    (hs : Orderly g (Known g) s) (he : s.memo.Agrees g) :
    t.memo.Agrees g ∧ ∀ found, a = some found → task.Agrees g s found t := by
  induction h with
  | revisit | again => exact ⟨he, nofun⟩
  | leaf _ _ hp => exact ⟨he, fun _ heq => Option.some.inj heq ▸ .leaf hp⟩
  | closed _ _ hp => exact ⟨he, fun _ heq => Option.some.inj heq ▸ .closed hp⟩
  | sequence hv hn hp h ih =>
    obtain ⟨he', ha⟩ := ih hm hc (hs.enter Known.stable hv hn) he
    refine ⟨he', ?_⟩
    intro found heq
    subst heq
    exact (ha found rfl).unwrap hv hn (.sequence hp) (fun _ _ htask => htask.sequence hg hp)
      fun _ hcalm => hcalm.unwrap Grammar.Calm.opens (.sequence hp)
  | choice hv hn hp h ih =>
    obtain ⟨he', ha⟩ := ih hm hc (hs.enter Known.stable hv hn) he
    refine ⟨he', ?_⟩
    intro found heq
    subst heq
    exact (ha found rfl).unwrap hv hn (.choice hp) (fun _ _ htask => htask.choice hg hp)
      fun _ hcalm => hcalm.unwrap Grammar.Calm.opens (.choice hp)
  | @action _ _ id _ _ _ hv hn hp h ih =>
    obtain ⟨he', ha⟩ := ih hm hc (hs.enter Known.stable hv hn) he
    refine ⟨he', ?_⟩
    intro found heq
    subst heq
    have hu : g.Unwraps id (Task.continuations id).inquiry := .action hp
    refine (ha found rfl).unwrap hv hn hu (fun _ _ htask => htask) fun o hcalm => ?_
    refine (hcalm id o .openings _ .refl hp).imp (fun hfree f q hcomes => ?_) fun hstays => ?_
    · exact hfree.opens ⟨_, hu, hcomes⟩
    · exact ⟨hstays, hcalm.unwrap Grammar.Calm.opens hu⟩
  | known _ _ hp hv => exact ⟨he, fun _ heq => he.known hp hv heq⟩
  | @called _ _ id s rule _ a t hv hn hp hnot h ih =>
    have hs' := hs.enter Known.stable hv hn
    obtain ⟨he', ha⟩ := ih hm hc hs' he
    obtain ⟨r, hr, rfl⟩ := hp.rule_of_call
    have hb : ∀ body, g.IsBody rule body ↔ body ∈ r.body? := fun body => hp.isBody_iff
    constructor
    · refine he'.insert hr ?_
      intro found heq before o l p ho hfinds hund hcalm
      subst heq
      exact (ha found rfl).verdict hg h hs' hb hnot ho hfinds hund hcalm
    · intro found heq
      subst heq
      refine (ha found rfl).unwrap hv hn (.call hp) ?_
        fun _ hcalm => hcalm.unwrap Grammar.Calm.opens (.call hp)
      intro P hP _ body hbody hin
      have hbody' := Option.mem_toList.mp hbody
      have hbegun := hP body (hg.of_within_body ((hb body).mpr hbody') hin)
      exact h.not_begun hg hb hnot body hbody' (hbegun.advance (hv.advance hn))
  | sequenceNil => exact ⟨he, fun _ heq => Option.some.inj heq ▸ .sequenceNil⟩
  | sequenceNone _ ih => exact ⟨(ih hm hc hs he).1, nofun⟩
  | sequenceStop h hstop ih =>
    obtain ⟨he', ha⟩ := ih hm hc hs he
    refine ⟨he', ?_⟩
    intro _ heq
    cases heq
    exact (ha _ rfl).sequenceStop h (h.knows hg hm hs).toOrderly (h.faithful hc) hstop
  | sequenceStep h hstep _ ih ih' =>
    have ht := (h.knows hg hm hs).toOrderly
    obtain ⟨he', ha⟩ := ih hm hc hs he
    obtain ⟨he'', hb⟩ := ih' (h.leaves hm).2 (h.faithful hc) ht he'
    refine ⟨he'', ?_⟩
    intro _ heq
    obtain ⟨more, rfl, rfl⟩ := Option.map_eq_some_iff.mp heq
    exact (ha _ rfl).sequenceStep hg (hb more rfl) h ht (h.faithful hc) hstep
  | branchesNil => exact ⟨he, fun _ heq => Option.some.inj heq ▸ .branchesNil⟩
  | branchesCons h _ ih ih' =>
    obtain ⟨he', ha⟩ := ih hm hc hs he
    obtain ⟨he'', hb⟩ := ih' (h.leaves hm).2 (h.faithful hc) (h.knows hg hm hs).toOrderly he'
    refine ⟨he'', ?_⟩
    intro _ heq
    obtain ⟨found, rfl, heq⟩ := Option.bind_eq_some_iff.mp heq
    obtain ⟨more, rfl, rfl⟩ := Option.map_eq_some_iff.mp heq
    exact (ha found rfl).branchesCons hg (hb more rfl) h
  | outermost _ hn hr hrm =>
    exact ⟨he, fun _ heq => Option.some.inj heq ▸ .outermost hc hn hr hrm⟩
  | followNone _ _ _ _ _ _ ih => exact ⟨(ih hm hc hs he).1, nofun⟩
  | settle _ hn hr hrm hp h hsettle ih =>
    obtain ⟨he', ha⟩ := ih hm hc hs he
    refine ⟨he', ?_⟩
    intro _ heq
    cases heq
    exact (ha _ rfl).settle hg hc (h.faithful hc) hn hr hrm hp hsettle
  | climb _ hn hr hrm hp h hall h' ih ih' =>
    obtain ⟨he', ha⟩ := ih hm hc hs he
    obtain ⟨he'', hb⟩ := ih' (h.leaves hm).2 (h.faithful hc) (h.knows hg hm hs).toOrderly he'
    refine ⟨he'', ?_⟩
    intro _ heq
    obtain ⟨more, rfl, rfl⟩ := Option.map_eq_some_iff.mp heq
    exact (ha _ rfl).climb hg (hb more rfl) h h' hc hn hr hrm hp hall

/-- What is known of the memo when rules are explored one after the other. -/
structure Verdicts.Consistent (g : Grammar) (memo : Verdicts) : Prop where
  listing : memo.Listing g
  rooted : memo.Rooted g
  agrees : memo.Agrees g

theorem Verdicts.consistent_empty : Verdicts.Consistent g ∅ where
  listing := listing_empty
  rooted := rooted_empty
  agrees _ _ _ _ hv := by simp at hv

theorem Verdicts.Consistent.explored (hg : g.Forest) {memo : Verdicts} (h : memo.Consistent g)
    {rule : RuleId} {r : ParserRule} (hid : (rule, r) ∈ g.parserRules) (hnot : rule ∉ memo)
    {a : Option (List ElementId)}
    (hx : Explores g g.explorationDepth [] (.branches r.body.toList) (.start memo) a t) :
    Verdicts.Consistent g (t.memoize rule a).memo := by
  have hstart := h.rooted.start
  obtain ⟨ha, ht⟩ := hx.leaves h.listing
  obtain ⟨hagrees, hstep⟩ := hx.agrees hg h.listing Context.faithful_empty hstart h.agrees
  obtain ⟨r', hr, hbody⟩ := Grammar.exists_rule_of_mem hid
  refine ⟨ht.insert ha, h.rooted.explored hg h.listing hid hx, hagrees.insert hr ?_⟩
  rw [hbody]
  intro found heq before o l p ho hfinds hund hcalm
  subst heq
  exact (hstep found rfl).verdict hg hx hstart (fun _ => Grammar.isBody_iff hid) hnot ho hfinds
    hund hcalm

theorem Surveys.consistent (hg : g.Forest) {rules : List (RuleId × ParserRule)}
    {memo memo' : Verdicts} (h : Surveys g rules memo memo') (hrules : rules ⊆ g.parserRules)
    (hm : memo.Consistent g) : memo'.Consistent g :=
  h.invariant hrules (fun hm hid hnot hx => hm.explored hg hid hnot hx) hm

theorem Inquiry.All.of_body {Q : ElementId × Context → Prop} {body? : Option ElementId}
    (h : ∀ body ∈ body?, Q (body, o)) : Inquiry.All g Q (.branches body?.toList) o := by
  intro f q hc
  cases body? with
  | none => cases hc
  | some body =>
    cases hc with
    | branchesHead => exact h _ rfl
    | branchesTail _ hc => cases hc

/-- On a grammar that has been built, detection leaves a verdict on every parser rule, and what it
lists for a rule that is not cyclic is what the search for the openings of the body finds: in the
same order and as often, if that search ends, is calm, and finds no mandatory element twice. -/
theorem detect_agrees {name : String} {commands : List Command} {g : Grammar}
    (h : Grammar.build name commands = .ok g) :
    ∃ found memo, g.detect.run ∅ = .ok (found, memo) ∧
      ∀ id rule, (id, rule) ∈ g.parserRules → ∃ v, memo[id]? = some v ∧
        ∀ openings, v = .acyclic openings → ∀ depth l p,
          (rule.body.elim (pure []) (g.openingsWithin depth)).run ∅ = .ok (l, p) →
          g.Undoubled l → (∀ body ∈ rule.body, g.Calm (body, ∅)) → openings = l := by
  have hg := Grammar.forest_of_build h
  obtain ⟨memo, hsurvey, hrun⟩ := Grammar.detect_run hg
  refine ⟨_, memo, hrun, fun id rule hid => ?_⟩
  obtain ⟨v, hv⟩ := hsurvey.complete hg hid
  refine ⟨v, hv, ?_⟩
  intro openings heq depth l p hquery hund hcalm
  subst heq
  obtain ⟨r, hr, hbody⟩ := Grammar.exists_rule_of_mem hid
  have hagrees := (hsurvey.consistent hg (List.Subset.refl _) Verdicts.consistent_empty).agrees
  rw [← scanBranches_toList] at hquery
  have hfinds := Finds.of_scanBranches (Finds.of_run depth).1 hquery
  refine (hagrees id r openings hr hv [] ∅ l p Context.earned_empty ?_ hund ?_).symm
  · rwa [hbody]
  · rw [hbody]
    exact .of_body hcalm

/-- The rules `B: 'k'` and `A: ({T} B?) 'a'`. Lookahead behind the action makes the keyword `k`
optional and climbs; detection has a verdict on `B` and does neither. -/
def muted : Grammar where
  name := "G"
  elements := #[⟨.keyword "k", .once, none⟩, ⟨.action "T" none, .once, some ⟨3⟩⟩,
    ⟨.ruleCall "B" (some ⟨0⟩) [], .optional, some ⟨3⟩⟩, ⟨.group [⟨1⟩, ⟨2⟩], .once, some ⟨5⟩⟩,
    ⟨.keyword "a", .once, some ⟨5⟩⟩, ⟨.group [⟨3⟩, ⟨4⟩], .once, none⟩]
  rules := #[.parser { name := "B", body := some ⟨0⟩ }, .parser { name := "A", body := some ⟨5⟩ }]

theorem build_muted : Grammar.build "G" [.add (.keyword "k"),
    .declare (.parser { name := "B", body := some ⟨0⟩ }), .add (.action "T" none),
    .add (.ruleCall "B" none []), .setCardinality ⟨2⟩ .optional, .add (.group [⟨1⟩, ⟨2⟩]),
    .add (.keyword "a"), .add (.group [⟨3⟩, ⟨4⟩]),
    .declare (.parser { name := "A", body := some ⟨5⟩ })] = .ok muted := by
  decide +kernel

/-- A verdict that does not list what the query finds. -/
theorem muted_disagrees : ∃ commands found memo, Grammar.build "G" commands = .ok muted ∧
    (⟨⟨1⟩, { name := "A", body := some ⟨5⟩ }⟩ : RuleId × ParserRule) ∈ muted.parserRules ∧
    muted.detect.run ∅ = .ok (found, memo) ∧ memo[(⟨1⟩ : RuleId)]? = some (.acyclic [⟨0⟩]) ∧
    (muted.openings (some ⟨5⟩)).fresh = .ok [⟨0⟩, ⟨4⟩] := by
  have hverdict : (muted.detect.run ∅).map (fun answer => answer.2[(⟨1⟩ : RuleId)]?) =
      .ok (some (.acyclic [⟨0⟩])) := by
    decide +kernel
  cases hrun : muted.detect.run ∅ with
  | error fault =>
    rw [hrun] at hverdict
    cases hverdict
  | ok answer =>
    rw [hrun] at hverdict
    exact ⟨_, _, _, build_muted, by decide, rfl, Except.ok.inj hverdict, by decide +kernel⟩

/-- The rules `B: 'k'` and `A: 'a'? ({T} b=B 'c')`. Detection has a verdict on `B` when it comes to the
call, which stands ahead of the action; nothing comes behind the group of the action. -/
def ahead : Grammar where
  name := "G"
  elements := #[⟨.keyword "k", .once, none⟩, ⟨.keyword "a", .optional, some ⟨7⟩⟩,
    ⟨.action "T" none, .once, some ⟨6⟩⟩, ⟨.ruleCall "B" (some ⟨0⟩) [], .once, some ⟨4⟩⟩,
    ⟨.assignment "b" .assign ⟨3⟩, .once, some ⟨6⟩⟩, ⟨.keyword "c", .once, some ⟨6⟩⟩,
    ⟨.group [⟨2⟩, ⟨4⟩, ⟨5⟩], .once, some ⟨7⟩⟩, ⟨.group [⟨1⟩, ⟨6⟩], .once, none⟩]
  rules := #[.parser { name := "B", body := some ⟨0⟩ }, .parser { name := "A", body := some ⟨7⟩ }]

theorem build_ahead : Grammar.build "G" [.add (.keyword "k"),
    .declare (.parser { name := "B", body := some ⟨0⟩ }), .add (.keyword "a"),
    .setCardinality ⟨1⟩ .optional, .add (.action "T" none), .add (.ruleCall "B" none []),
    .add (.assignment "b" .assign ⟨3⟩), .add (.keyword "c"), .add (.group [⟨2⟩, ⟨4⟩, ⟨5⟩]),
    .add (.group [⟨1⟩, ⟨6⟩]), .declare (.parser { name := "A", body := some ⟨7⟩ })] =
      .ok ahead := by
  decide +kernel

theorem calm_ahead (s : ElementId × Context) : ahead.Calm s := by
  intro t _ hp
  have hid : t.1 = ⟨2⟩ := by
    obtain ⟨e, _, _, he, hk⟩ := hp.kind_action
    obtain ⟨⟨index⟩, _⟩ := t
    have hlt : index < ahead.elements.size := Grammar.Issued.index_lt ⟨e, he⟩
    have hall : ∀ i < ahead.elements.size, ((ahead.element? ⟨i⟩).any (·.kind.isAction)) = true →
        i = 2 := by
      decide
    exact congrArg ElementId.mk (hall index hlt (by rw [he]; simp [hk, ElementKind.isAction]))
  refine .inr fun member group hga => ?_
  rw [hid] at hga
  have hga' : ahead.groupAround ⟨2⟩ = .ok (⟨2⟩, some ⟨6⟩) := rfl
  cases hga'.symm.trans hga
  exact .last rfl rfl rfl rfl (.outermost rfl rfl rfl)

theorem detect_agrees_ahead : ∃ memo, ahead.detect.run ∅ = .ok ([], memo) ∧
    memo[(⟨0⟩ : RuleId)]? = some (.acyclic [⟨0⟩]) ∧
    memo[(⟨1⟩ : RuleId)]? = some (.acyclic [⟨1⟩, ⟨0⟩]) := by
  have hfound : (ahead.detect.run ∅).map (·.1) = .ok [] := by decide +kernel
  have hacyclic : ∀ id : RuleId, id = ⟨0⟩ ∨ id = ⟨1⟩ →
      (ahead.detect.run ∅).map (fun answer => answer.2[id]?) ≠ .ok (some .cyclic) := by
    rintro _ (rfl | rfl) <;> decide +kernel
  obtain ⟨found, memo, hrun, hagrees⟩ := detect_agrees build_ahead
  rw [hrun] at hfound hacyclic
  cases hfound
  have hlist : ∀ id rule openings p, (id, rule) ∈ ahead.parserRules → id = ⟨0⟩ ∨ id = ⟨1⟩ →
      (rule.body.elim (pure []) (ahead.openingsWithin 8)).run ∅ = .ok (openings, p) →
      openings.Nodup → memo[id]? = some (.acyclic openings) := by
    intro id rule openings p hmem hid hquery hnodup
    obtain ⟨v, hv, hlist⟩ := hagrees id rule hmem
    cases v with
    | cyclic => exact absurd (congrArg Except.ok hv) (hacyclic id hid)
    | acyclic known =>
      rw [hv, hlist known rfl 8 _ _ hquery (.of_nodup hnodup) fun _ _ => calm_ahead _]
  refine ⟨memo, hrun, hlist _ { name := "B", body := some ⟨0⟩ } _ ∅ (by decide) (.inl rfl) ?_
    (by decide), hlist _ { name := "A", body := some ⟨7⟩ } _ ∅ (by decide) (.inr rfl) ?_ (by decide)⟩
  · decide +kernel
  · decide +kernel

end GrammarLookahead
