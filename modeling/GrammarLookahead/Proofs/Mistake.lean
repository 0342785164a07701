import GrammarLookahead.Proofs.History
import GrammarLookahead.Proofs.Refusal
import GrammarLookahead.Proofs.Resolution

namespace GrammarLookahead

namespace Draft

open Command

variable {d : Draft} {past : List Event} {e : DraftError}

/-- The events have made the draft what it is. -/
structure Follows (d : Draft) (past : List Event) : Prop where
  made : ∀ {id}, .make id ∈ past ↔ id.index < d.elements.size
  enclosed : ∀ {parent child}, .enclose parent child ∈ past ↔ d.containerOf child = some parent
  claimed : ∀ {name body}, .claim name body ∈ past ↔
    ∃ r ∈ d.rules, r.body? = some body ∧ r.name = name
  named : ∀ {name}, .name name ∈ past ↔ ∃ r ∈ d.rules, r.name = name
  root : ∀ {r body}, r ∈ d.rules → r.body? = some body →
    body.index < d.elements.size ∧ d.containerOf body = none
  owner : ∀ {r r' body}, r ∈ d.rules → r' ∈ d.rules → r.body? = some body → r'.body? = some body →
    r = r'

/-- The mistake in the draft is the first breach among the events; without one they have made the draft
what it is. -/
structure Reflects (d : Draft) (past : List Event) : Prop where
  mistake : ∀ e, d.mistake = some e ↔ FirstBreach past e
  follows : d.mistake = none → d.Follows past

theorem eq_of_mistake_fail (hm : d.mistake = none) {e' : DraftError}
    (h : (d.fail e').mistake = some e) : e' = e := by
  simpa [mistake_fail, hm] using h

theorem body_of_bodyOwner? {body : ElementId} {owner : Rule} (h : d.bodyOwner? body = some owner) :
    owner ∈ d.rules ∧ owner.body? = some body :=
  ⟨Array.mem_of_find?_eq_some h, by simpa using Array.find?_some h⟩

theorem not_body_of_bodyOwner? {body : ElementId} (h : d.bodyOwner? body = none) {r : Rule}
    (hr : r ∈ d.rules) : r.body? ≠ some body := by
  obtain ⟨i, hi⟩ := Array.mem_iff_getElem?.mp hr
  exact bodyOwner?_eq_none h hi

namespace Follows

theorem empty (name : String) : Follows { name } [] := by
  constructor <;> simp [containerOf]

theorem made_of_enclosed (hd : d.Follows past) {parent child : ElementId}
    (h : .enclose parent child ∈ past) : .make child ∈ past := by
  refine hd.made.mpr (Nat.lt_of_not_le fun hle => ?_)
  have hc := hd.enclosed.mp h
  simp [containerOf, Array.getElem?_eq_none hle] at hc

theorem made_of_claimed (hd : d.Follows past) {rule : String} {body : ElementId}
    (h : .claim rule body ∈ past) : .make body ∈ past := by
  obtain ⟨r, hr, hbody, -⟩ := hd.claimed.mp h
  exact hd.made.mpr (hd.root hr hbody).1

theorem not_claimed_of_enclosed (hd : d.Follows past) {rule : String} {parent child : ElementId}
    (h : .enclose parent child ∈ past) : .claim rule child ∉ past := by
  intro hclaim
  obtain ⟨r, hr, hbody, -⟩ := hd.claimed.mp hclaim
  have hc := hd.enclosed.mp h
  rw [(hd.root hr hbody).2] at hc
  cases hc

theorem container_unique (hd : d.Follows past) {parent parent' child : ElementId}
    (h : .enclose parent child ∈ past) (h' : .enclose parent' child ∈ past) : parent = parent' :=
  Option.some.inj ((hd.enclosed.mp h).symm.trans (hd.enclosed.mp h'))

theorem owner_unique (hd : d.Follows past) {rule rule' : String} {body : ElementId}
    (h : .claim rule body ∈ past) (h' : .claim rule' body ∈ past) : rule = rule' := by
  obtain ⟨r, hr, hbody, rfl⟩ := hd.claimed.mp h
  obtain ⟨r', hr', hbody', rfl⟩ := hd.claimed.mp h'
  rw [hd.owner hr hr' hbody hbody']

/-- An event breaks one rule at most: what has been taken in is no body, and both have been made. -/
theorem breach_unique (hd : d.Follows past) {event : Event} {e' : DraftError}
    (h : Breach past event e) (h' : Breach past event e') : e = e' := by
  cases h with
  | unknownChild hn =>
    cases h' with
    | unknownChild => rfl
    | containedChild hp => exact absurd (hd.made_of_enclosed hp) hn
    | claimedChild hp => exact absurd (hd.made_of_claimed hp) hn
  | containedChild hp =>
    cases h' with
    | unknownChild hn => exact absurd (hd.made_of_enclosed hp) hn
    | containedChild hp' => rw [hd.container_unique hp hp']
    | claimedChild hp' => exact absurd hp' (hd.not_claimed_of_enclosed hp)
  | claimedChild hp =>
    cases h' with
    | unknownChild hn => exact absurd (hd.made_of_claimed hp) hn
    | containedChild hp' => exact absurd hp (hd.not_claimed_of_enclosed hp')
    | claimedChild => rfl
  | unknownBody hn =>
    cases h' with
    | unknownBody => rfl
    | containedBody hp => exact absurd (hd.made_of_enclosed hp) hn
    | claimedBody hp => exact absurd (hd.made_of_claimed hp) hn
  | containedBody hp =>
    cases h' with
    | unknownBody hn => exact absurd (hd.made_of_enclosed hp) hn
    | containedBody => rfl
    | claimedBody hp' => exact absurd hp' (hd.not_claimed_of_enclosed hp)
  | claimedBody hp =>
    cases h' with
    | unknownBody hn => exact absurd (hd.made_of_claimed hp) hn
    | containedBody hp' => exact absurd hp (hd.not_claimed_of_enclosed hp')
    | claimedBody hp' => rw [hd.owner_unique hp hp']
  | takenName =>
    cases h'
    rfl
  | unknownTarget =>
    cases h'
    rfl

theorem mistake_iff (hd : d.Follows past) {event : Event} {mistake : Option DraftError}
    (hsome : ∀ e, mistake = some e → Breach past event e)
    (hnone : mistake = none → ∀ e, ¬ Breach past event e) :
    mistake = some e ↔ Breach past event e := by
  refine ⟨hsome e, fun hbreach => ?_⟩
  cases hm : mistake with
  | none => exact absurd hbreach (hnone hm e)
  | some e' => rw [hd.breach_unique (hsome e' hm) hbreach]

theorem mistake_enclose (hd : d.Follows past) (hm : d.mistake = none) {parent child : ElementId} :
    (d.enclose parent child).mistake = some e ↔ Breach past (.enclose parent child) e := by
  refine hd.mistake_iff ?_ ?_
  · intro e h
    unfold Draft.enclose at h
    split_ifs at h with hb
    · obtain rfl := eq_of_mistake_fail hm h
      obtain ⟨owner, howner⟩ := Option.isSome_iff_exists.mp hb
      obtain ⟨hr, hbody⟩ := body_of_bodyOwner? howner
      exact .claimedChild (hd.claimed.mpr ⟨owner, hr, hbody, rfl⟩)
    · split at h
      · rename_i he
        obtain rfl := eq_of_mistake_fail hm h
        have hle : d.elements.size ≤ child.index := Array.getElem?_eq_none_iff.mp he
        exact .unknownChild fun hp => absurd (hd.made.mp hp) (Nat.not_lt.mpr hle)
      · rename_i element he
        split at h
        · rename_i existing hc
          obtain rfl := eq_of_mistake_fail hm h
          exact .containedChild (hd.enclosed.mpr (by simp [containerOf, he, hc]))
        · exact absurd (h.symm.trans hm) (Option.some_ne_none e)
  · intro h e hbreach
    obtain ⟨-, hb, hlt, hc, -⟩ := enclose_cases h
    cases hbreach with
    | unknownChild hn => exact hn (hd.made.mpr hlt)
    | containedChild hp => exact Option.some_ne_none _ ((hd.enclosed.mp hp).symm.trans hc)
    | claimedChild hp =>
      obtain ⟨r, hr, hbody, -⟩ := hd.claimed.mp hp
      exact not_body_of_bodyOwner? hb hr hbody

theorem enclose (hd : d.Follows past) {parent child : ElementId}
    (h : (d.enclose parent child).mistake = none) :
    (d.enclose parent child).Follows (past ++ [.enclose parent child]) := by
  obtain ⟨-, hb, hlt, hc, heq⟩ := enclose_cases h
  rw [heq]
  constructor
  · intro id
    simpa using hd.made
  · intro outer inner
    rw [containerOf_modify hlt, List.mem_append, hd.enclosed]
    by_cases hi : inner = child
    · subst hi
      simp [hc, eq_comm]
    · simp [hi]
  · intro name body
    simpa using hd.claimed
  · intro name
    simpa using hd.named
  · intro r body hr hbody
    obtain ⟨hlt', hc'⟩ := hd.root hr hbody
    have hne : body ≠ child := fun he => not_body_of_bodyOwner? hb hr (he ▸ hbody)
    rw [containerOf_modify hlt]
    simpa [hne] using ⟨hlt', hc'⟩
  · exact hd.owner

theorem make (hd : d.Follows past) (kind : ElementKind) (c : Cardinality) :
    ({ d with elements := d.elements.push ⟨kind, c, none⟩ } : Draft).Follows
      (past ++ [.make ⟨d.elements.size⟩]) := by
  constructor
  · intro id
    have hid : id = ⟨d.elements.size⟩ ↔ id.index = d.elements.size := ElementId.ext_iff
    simp only [List.mem_append, hd.made, List.mem_singleton, Event.make.injEq, hid,
      Array.size_push]
    omega
  · intro parent child
    rw [containerOf_push]
    simpa using hd.enclosed
  · intro name body
    simpa using hd.claimed
  · intro name
    simpa using hd.named
  · intro r body hr hbody
    obtain ⟨hlt, hc⟩ := hd.root hr hbody
    rw [containerOf_push, Array.size_push]
    exact ⟨Nat.lt_succ_of_lt hlt, hc⟩
  · exact hd.owner

theorem mistake_setCardinality (hd : d.Follows past) (hm : d.mistake = none) {id : ElementId}
    {c : Cardinality} :
    (d.setCardinality id c).mistake = some e ↔ Breach past (.write id) e := by
  refine hd.mistake_iff ?_ ?_
  · intro e h
    unfold Draft.setCardinality at h
    split_ifs at h with hlt
    · exact absurd (h.symm.trans hm) (Option.some_ne_none e)
    · obtain rfl := eq_of_mistake_fail hm h
      exact .unknownTarget (mt hd.made.mp hlt)
  · intro h e hbreach
    unfold Draft.setCardinality at h
    split_ifs at h with hlt
    · cases hbreach with
      | unknownTarget hn => exact hn (hd.made.mpr hlt)
    · exact not_mistake_of_fail h

theorem setCardinality (hd : d.Follows past) {id : ElementId} {c : Cardinality}
    (h : (d.setCardinality id c).mistake = none) :
    (d.setCardinality id c).Follows (past ++ [.write id]) := by
  unfold Draft.setCardinality at h ⊢
  split_ifs at h ⊢
  · have hc := containerOf_setCardinality (d := d) id c
    constructor
    · intro other
      simpa using hd.made
    · intro parent child
      rw [hc]
      simpa using hd.enclosed
    · intro name body
      simpa using hd.claimed
    · intro name
      simpa using hd.named
    · intro r body hr hbody
      rw [hc]
      simpa using hd.root hr hbody
    · exact hd.owner
  · exact absurd h not_mistake_of_fail

theorem mistake_checkBody (hd : d.Follows past) (hm : d.mistake = none) (rule : String)
    {body : ElementId} :
    (d.checkBody body).mistake = some e ↔ Breach past (.claim rule body) e := by
  refine hd.mistake_iff ?_ ?_
  · intro e h
    unfold checkBody at h
    split at h
    · rename_i he
      obtain rfl := eq_of_mistake_fail hm h
      have hle : d.elements.size ≤ body.index := Array.getElem?_eq_none_iff.mp he
      exact .unknownBody fun hp => absurd (hd.made.mp hp) (Nat.not_lt.mpr hle)
    · rename_i element he
      split_ifs at h with hcontainer
      · obtain rfl := eq_of_mistake_fail hm h
        obtain ⟨container, hc⟩ := Option.isSome_iff_exists.mp hcontainer
        have hin : .enclose container body ∈ past := hd.enclosed.mpr (by simp [containerOf, he, hc])
        exact .containedBody hin
      · split at h
        · rename_i owner howner
          obtain rfl := eq_of_mistake_fail hm h
          obtain ⟨hr, hbody⟩ := body_of_bodyOwner? howner
          exact .claimedBody (hd.claimed.mpr ⟨owner, hr, hbody, rfl⟩)
        · exact absurd (h.symm.trans hm) (Option.some_ne_none e)
  · intro h e hbreach
    obtain ⟨-, hlt, hc, hb⟩ := checkBody_cases h
    cases hbreach with
    | unknownBody hn => exact hn (hd.made.mpr hlt)
    | containedBody hp => exact Option.some_ne_none _ ((hd.enclosed.mp hp).symm.trans hc)
    | claimedBody hp =>
      obtain ⟨r, hr, hbody, -⟩ := hd.claimed.mp hp
      exact not_body_of_bodyOwner? hb hr hbody

theorem mistake_checkName (hd : d.Follows past) (hm : d.mistake = none) {name : String} :
    (d.checkName name).mistake = some e ↔ Breach past (.name name) e := by
  have hany : d.rules.any (·.name == name) = true ↔ ∃ r ∈ d.rules, r.name = name := by
    simp [Array.mem_iff_getElem]
  refine hd.mistake_iff ?_ ?_
  · intro e h
    unfold checkName at h
    split_ifs at h with htaken
    · obtain rfl := eq_of_mistake_fail hm h
      exact .takenName (hd.named.mpr (hany.mp htaken))
    · exact absurd (h.symm.trans hm) (Option.some_ne_none e)
  · intro h e hbreach
    unfold checkName at h
    split_ifs at h with htaken
    · exact not_mistake_of_fail h
    · cases hbreach with
      | takenName hp => exact htaken (hany.mpr (hd.named.mp hp))

theorem declare (hd : d.Follows past) {rule : Rule} {made : Nat}
    (h : (d.declare rule).2.mistake = none) :
    (d.declare rule).2.Follows (past ++ (Command.declare rule).events made) := by
  obtain ⟨heq, -, hbody⟩ := declare_cases h
  have hmem : ∀ {r}, r ∈ d.rules.push rule ↔ r ∈ d.rules ∨ r = rule := Array.mem_push
  rw [heq]
  constructor
  · intro id
    simpa [events] using hd.made
  · intro parent child
    change _ ↔ d.containerOf child = some parent
    simpa [events] using hd.enclosed
  · intro name body
    simp only [hmem, or_and_right, exists_or, exists_eq_left, ← hd.claimed, List.mem_append,
      claim_mem_events]
  · intro name
    simp only [hmem, or_and_right, exists_or, exists_eq_left, ← hd.named, List.mem_append,
      name_mem_events]
  · intro r body hr hb
    rcases hmem.mp hr with hr | rfl
    · exact hd.root hr hb
    · exact ⟨(hbody body hb).1, (hbody body hb).2.1⟩
  · intro r r' body hr hr' hb hb'
    rcases hmem.mp hr with hold | rfl <;> rcases hmem.mp hr' with hold' | rfl
    · exact hd.owner hold hold' hb hb'
    · exact absurd hb (not_body_of_bodyOwner? (hbody body hb').2.2 hold)
    · exact absurd hb' (not_body_of_bodyOwner? (hbody body hb).2.2 hold')
    · rfl

end Follows

namespace Reflects

theorem proper (hd : d.Reflects past) (hm : d.mistake = none) : Proper past := by
  rw [proper_iff]
  intro e hfirst
  rw [← hd.mistake, hm] at hfirst
  cases hfirst

theorem firstBreach_concat (hd : d.Reflects past) (hm : d.mistake = none) {event : Event} :
    FirstBreach (past ++ [event]) e ↔ Breach past event e := by
  have hnone : ¬ FirstBreach past e := by
    rw [← hd.mistake, hm]
    simp
  simp [GrammarLookahead.firstBreach_concat, hnone, hd.proper hm]

/-- After a mistake nothing changes what is reported. -/
theorem of_mistake (hd : d.Reflects past) (hm : d.mistake = some e) {d' : Draft}
    (hm' : d'.mistake = some e) (later : List Event) : d'.Reflects (past ++ later) := by
  have hfirst : FirstBreach past e := (hd.mistake e).mp hm
  constructor
  · intro e'
    rw [firstBreach_append_iff hfirst.not_proper, ← hd.mistake, hm, hm']
  · intro h
    rw [hm'] at h
    cases h

theorem enclose (hd : d.Reflects past) (parent child : ElementId) :
    (d.enclose parent child).Reflects (past ++ [.enclose parent child]) := by
  cases hm : d.mistake with
  | some e => exact hd.of_mistake hm (mistake_enclose_of_some hm parent child) _
  | none =>
    have hfollows := hd.follows hm
    constructor
    · intro e
      rw [hfollows.mistake_enclose hm]
      exact (hd.firstBreach_concat hm).symm
    · exact hfollows.enclose

theorem foldl_enclose (hd : d.Reflects past) (parent : ElementId) (children : List ElementId) :
    (children.foldl (·.enclose parent ·) d).Reflects (past ++ children.map (.enclose parent)) := by
  induction children generalizing d past with
  | nil => rwa [List.map_nil, List.append_nil]
  | cons child children ih =>
    have hrest := ih (hd.enclose parent child)
    rwa [List.append_assoc] at hrest

theorem make (hd : d.Reflects past) (kind : ElementKind) (c : Cardinality) :
    ({ d with elements := d.elements.push ⟨kind, c, none⟩ } : Draft).Reflects
      (past ++ [.make ⟨d.elements.size⟩]) := by
  constructor
  · intro e
    have hno : ¬ Breach past (.make ⟨d.elements.size⟩) e := nofun
    simp only [GrammarLookahead.firstBreach_concat, hno, and_false, or_false]
    exact hd.mistake e
  · intro hm
    exact (hd.follows hm).make kind c

theorem setCardinality (hd : d.Reflects past) (id : ElementId) (c : Cardinality) :
    (d.setCardinality id c).Reflects (past ++ [.write id]) := by
  cases hm : d.mistake with
  | some e => exact hd.of_mistake hm (mistake_setCardinality_of_some hm id c) _
  | none =>
    have hfollows := hd.follows hm
    constructor
    · intro e
      rw [hfollows.mistake_setCardinality hm]
      exact (hd.firstBreach_concat hm).symm
    · exact hfollows.setCardinality

theorem breach_name_concat {rule name : String} {body : ElementId} :
    Breach (past ++ [.claim rule body]) (.name name) e ↔ Breach past (.name name) e := by
  constructor
  · intro h
    cases h with
    | takenName hp => exact .takenName (by simpa using hp)
  · intro h
    cases h with
    | takenName hp => exact .takenName (List.mem_append_left _ hp)

theorem declare (hd : d.Reflects past) (rule : Rule) (made : Nat) :
    (d.declare rule).2.Reflects (past ++ (Command.declare rule).events made) := by
  cases hm : d.mistake with
  | some e => exact hd.of_mistake hm (mistake_declare_of_some hm rule) _
  | none =>
    have hfollows := hd.follows hm
    refine ⟨?_, hfollows.declare⟩
    intro e
    cases hb : rule.body? with
    | none =>
      have hdeclare : (d.declare rule).2.mistake = (d.checkName rule.name).mistake := by
        simp [Draft.declare, hb]
      rw [hdeclare, hfollows.mistake_checkName hm, events, hb]
      exact (hd.firstBreach_concat hm).symm
    | some body =>
      have hdeclare : (d.declare rule).2.mistake =
          ((d.checkBody body).checkName rule.name).mistake := by
        simp [Draft.declare, hb]
      have hevents : past ++ (Command.declare rule).events made =
          past ++ [.claim rule.name body] ++ [.name rule.name] := by
        simp [events, hb]
      have hclaim : ∀ e, (d.checkBody body).mistake = some e ↔
          FirstBreach (past ++ [.claim rule.name body]) e := by
        intro e
        rw [hfollows.mistake_checkBody hm rule.name]
        exact (hd.firstBreach_concat hm).symm
      rw [hdeclare, hevents]
      cases hchecked : (d.checkBody body).mistake with
      | some e' =>
        -- The body is checked before the name, whose breach comes later.
        have hfirst := (hclaim e').mp hchecked
        rw [mistake_checkName_of_some hchecked, firstBreach_append_iff hfirst.not_proper, ← hclaim,
          hchecked]
      | none =>
        obtain ⟨heq, -, -, -⟩ := checkBody_cases hchecked
        have hnone : ∀ e, ¬ FirstBreach (past ++ [.claim rule.name body]) e := by
          intro e
          rw [← hclaim, hchecked]
          simp
        rw [heq, hfollows.mistake_checkName hm, GrammarLookahead.firstBreach_concat,
          breach_name_concat]
        simp [hnone, proper_iff]

theorem perform (hd : d.Reflects past) (command : Command) :
    (d.perform command).2.Reflects (past ++ command.events d.elements.size) := by
  cases command with
  | add kind =>
    have hall := (hd.make kind .once).foldl_enclose ⟨d.elements.size⟩ kind.children
    rwa [List.append_assoc] at hall
  | setCardinality id c => exact hd.setCardinality id c
  | declare rule => exact hd.declare rule _

theorem empty (name : String) : Draft.Reflects { name } [] := by
  refine ⟨?_, fun _ => Follows.empty name⟩
  intro e
  simp [firstBreach_nil]

theorem performAll (name : String) (commands : List Command) :
    (Draft.performAll { name } commands).Reflects (history commands) := by
  induction commands using List.reverseRecOn with
  | nil => exact Reflects.empty name
  | append_singleton commands command ih =>
    have hstep := ih.perform command
    rw [size_performAll, ← history_concat] at hstep
    rwa [performAll_append]

end Reflects

end Draft

/-- How building answers commands with arbitrary handles. -/
structure Grammar.ReportsFirst (name : String) (commands : List Command) : Prop where
  /-- Building fails if something breaks a rule after what was done before, and only then. -/
  fails_iff : (∃ e, Grammar.build name commands = .error e) ↔
    ∃ past event later e, Command.history commands = past ++ event :: later ∧ Breach past event e
  error_iff : ∀ {e}, Grammar.build name commands = .error e ↔
    FirstBreach (Command.history commands) e
  /-- Nothing that is done later changes the report. -/
  stays : ∀ {e}, Grammar.build name commands = .error e →
    ∀ more, Grammar.build name (commands ++ more) = .error e
  /-- A child that must have been made when it is taken in is no younger than its parent. -/
  made_iff : ∀ {past parent child later},
    Command.history commands = past ++ .enclose parent child :: later →
      (.make child ∈ past ↔ child.index ≤ parent.index)
  /-- Elements are numbered as they are made, and rules as they are declared, also after a
  mistake. -/
  element : ∀ kind, ((Draft.performAll { name } commands).perform (.add kind)).1 =
    .element ⟨(Command.kinds commands).length⟩
  rule : ∀ rule, ((Draft.performAll { name } commands).perform (.declare rule)).1 =
    .rule ⟨(Command.declared commands).length⟩

theorem build_eq_error_iff {name : String} {commands : List Command} {e : DraftError} :
    Grammar.build name commands = .error e ↔ FirstBreach (Command.history commands) e :=
  Draft.finish_eq_error_iff.trans ((Draft.Reflects.performAll name commands).mistake e)

/-- Building reports the first breach of the history of its commands, and keeps to it. -/
theorem reportsFirst_build (name : String) (commands : List Command) :
    Grammar.ReportsFirst name commands where
  fails_iff := by
    simp only [build_eq_error_iff, ← not_proper_iff, Proper]
    push Not
    rfl
  error_iff := build_eq_error_iff
  stays := by
    intro e h more
    rw [build_eq_error_iff] at h ⊢
    rw [Command.history_append, firstBreach_append_iff h.not_proper]
    exact h
  made_iff := Command.make_mem_of_enclose
  element := by
    intro kind
    rw [← Draft.size_performAll name]
    rfl
  rule := by
    intro rule
    rw [← Draft.rules_performAll name, Array.length_toList]
    rfl

/-- A child that is taken in twice, and after it an unknown child, a name that is taken and a
cardinality at nothing. -/
def blundering : List Command :=
  [.add (.keyword "a"), .add (.group [⟨0⟩]), .add (.alternatives [⟨0⟩, ⟨7⟩]),
    .declare (.parser { name := "A", body := some ⟨1⟩ }), .declare (.terminal { name := "A" }),
    .setCardinality ⟨9⟩ .optional]

theorem reportsFirst_blundering :
    Grammar.build "G" blundering = .error (.alreadyContained ⟨0⟩ ⟨1⟩) ∧
      Grammar.ReportsFirst "G" blundering :=
  ⟨by decide +kernel, reportsFirst_build "G" blundering⟩

end GrammarLookahead
