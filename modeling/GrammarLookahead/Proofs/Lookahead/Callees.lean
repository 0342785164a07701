import GrammarLookahead.Proofs.Lookahead.Opens
import GrammarLookahead.Proofs.Lookahead.Skipping
import GrammarLookahead.Proofs.Ownership

namespace GrammarLookahead

open Relation

namespace Grammar

/-- Somewhere in the body of the first rule the second one is called. -/
def Calls (g : Grammar) (rule called : RuleId) : Prop :=
  ∃ id parser, g.Owns rule id ∧ g.callee id = .ok (some (called, parser))

/-- The element is part of the rule, or of one that the rule calls, directly or through others. -/
def OwnsByCalls (g : Grammar) (rule : RuleId) (id : ElementId) : Prop :=
  ∃ called, ReflTransGen g.Calls rule called ∧ g.Owns called id

/-- The property is kept wherever a search goes without the stack: into an element, out of it, and into
the body of a rule that is called. A search gets out of a rule only to a call on the stack, also where
it looks ahead from an action that it has come to through calls. -/
structure Closed (g : Grammar) (P : ElementId → Prop) : Prop where
  inner : ∀ {around id}, P around → g.Holds around id → P id
  outer : ∀ {around id}, P id → g.Holds around id → P around
  body : ∀ {id rule body? body}, P id → g.Plays id (.call rule body?) → body ∈ body? → P body

theorem Forest.closed_ownsByCalls {g : Grammar} (hg : g.Forest) (R : RuleId → Prop) :
    g.Closed fun id => ∃ rule, R rule ∧ g.OwnsByCalls rule id where
  inner h ho := by
    obtain ⟨rule, hrule, called, hcalls, howns⟩ := h
    exact ⟨rule, hrule, called, hcalls, howns.inner ho⟩
  outer h ho := by
    obtain ⟨rule, hrule, called, hcalls, howns⟩ := h
    exact ⟨rule, hrule, called, hcalls, howns.outer hg ho⟩
  body h hp hb := by
    obtain ⟨rule, hrule, called, hcalls, howns⟩ := h
    obtain ⟨parser, hcallee, -⟩ := hp.callee_of_call
    exact ⟨rule, hrule, _, hcalls.tail ⟨_, parser, howns, hcallee⟩, .of_body (hp.isBody_iff.mpr hb)⟩

end Grammar

variable {g : Grammar} {P : ElementId → Prop} {i : Inquiry} {o p : Context}
  {id member : ElementId} {l : List ElementId}

namespace Grammar.Closed

theorem enclosing (hP : g.Closed P) (h : P id) (he : g.Encloses member id) : P member := by
  induction he with
  | refl => exact h
  | tail _ ho ih => exact ih (hP.outer h ho)

theorem repeated (hP : g.Closed P) (h : P id) {group? : Option ElementId}
    (har : g.Arrives id member group?) : ∀ other ∈ repeated id member, P other :=
  forall_repeated h (hP.enclosing h har.wraps.encloses)

theorem group (hP : g.Closed P) (h : P id) {group : ElementId}
    (har : g.Arrives id member (some group)) : P group :=
  hP.outer (hP.enclosing h har.wraps.encloses) ((har.holds_iff group).mpr rfl)

theorem unwrap (hP : g.Closed P) (h : P id) (hu : g.Unwraps id i) :
    ∀ other ∈ i.elements, P other := by
  intro other ho
  cases hu with
  | sequence hp => exact hP.inner h (hp.holds_sequence ho)
  | choice hp => exact hP.inner h (hp.holds_choice ho)
  | action => exact List.mem_singleton.mp ho ▸ h
  | call hp => exact hP.body h hp (Option.mem_toList.mp ho)

end Grammar.Closed

theorem Grammar.holds_of_membersAfter {group other : ElementId} {after : List ElementId}
    (h : g.membersAfter group member = .ok after) (ho : other ∈ after) : g.Holds group other := by
  obtain ⟨e, he, h⟩ := bind_eq_ok.mp h
  cases hk : e.kind with
  | group members =>
    rw [hk] at h
    cases h
    have hmem : other ∈ members := (List.dropWhile_suffix _).mem (List.mem_of_mem_tail ho)
    exact ⟨e, element_eq_ok_iff.mp he, by simpa [Element.children, hk, ElementKind.children] using hmem⟩
  | _ =>
    rw [hk] at h
    cases h
    exact absurd ho List.not_mem_nil

/-- A search that starts with elements that have the property finds only such. -/
theorem Finds.of_closed (hg : g.Forest) (hP : g.Closed P) (h : Finds g i o l p)
    (hi : ∀ id ∈ i.elements, P id) : ∀ id ∈ l, P id := by
  have happend : ∀ {l l' : List ElementId}, (∀ id ∈ l, P id) → (∀ id ∈ l', P id) →
      ∀ id ∈ l ++ l', P id := fun hl hl' id hid => (List.mem_append.mp hid).elim (hl id) (hl' id)
  have hnil : ∀ id ∈ ([] : List ElementId), P id := fun id hid => absurd hid List.not_mem_nil
  have honly : ∀ {id}, P id → ∀ other ∈ [id], P other := fun h _ ho => List.mem_singleton.mp ho ▸ h
  have hhead : ∀ {id rest}, (∀ other ∈ id :: rest, P other) → P id := fun h => h _ List.mem_cons_self
  have htail : ∀ {id rest}, (∀ other ∈ id :: rest, P other) → ∀ other ∈ rest, P other :=
    fun h other ho => h other (List.mem_cons_of_mem _ ho)
  induction h with
  | leaf => exact hi
  | closed | sequenceNil | branchesNil | repetitionsNil | bottom => exact hnil
  | unwrap hu _ ih => exact ih (hP.unwrap (hhead hi) hu)
  | sequenceStop _ _ ih => exact ih (honly (hhead hi))
  | sequenceStep _ _ _ ih ih' => exact happend (ih (honly (hhead hi))) (ih' (htail hi))
  | branchesCons _ _ ih ih' => exact happend (ih (honly (hhead hi))) (ih' (htail hi))
  | repetitionsOnce _ _ _ ih => exact ih (htail hi)
  | repetitionsAgain _ _ _ ih ih' => exact happend (ih (honly (hhead hi))) (ih' (htail hi))
  | outermost hga _ ih => exact ih (hP.repeated (hhead hi) (hg.arrives hga))
  | follow hga haft _ _ ih ih' =>
    have har := hg.arrives hga
    have hgroup := hP.group (hhead hi) har
    exact happend (ih (hP.repeated (hhead hi) har))
      (ih' fun other ho => hP.inner hgroup (Grammar.holds_of_membersAfter haft ho))
  | pop _ _ _ ih ih' => exact happend (ih (honly (hhead hi))) (ih' (htail hi))
  | settle _ _ _ ih => exact ih (honly (hhead hi))
  | climb hga _ _ _ _ ih ih' =>
    have hgroup := hP.group (hhead hi) (hg.arrives hga)
    exact happend (ih (honly (hhead hi))) (ih' (honly hgroup))
  | leave hga _ _ _ _ _ ih ih' ih'' =>
    have hgroup := hP.group (hhead hi) (hg.arrives hga)
    exact happend (happend (ih (honly (hhead hi))) (ih' (honly hgroup))) (ih'' (htail hi))

/-- On a grammar that has been built, and in any context, the candidates for what comes first in an
element of a rule are part of that rule or of rules that it calls, directly or through others. The
candidates for what comes next after a position in rules are part of the rules of the stack or of rules
that these call, and not of any other rule that calls them. -/
theorem candidates_of_callees {name : String} {commands : List Command} {g : Grammar}
    (h : Grammar.build name commands = .ok g) :
    (∀ rule id, g.Owns rule id → ∀ depth o found p,
      (g.openingsWithin depth id).run o = .ok (found, p) →
        ∀ candidate ∈ found, g.OwnsByCalls rule candidate) ∧
    ∀ stack, (∀ id ∈ stack, g.InRule id) → ∀ depth o found p,
      (g.continuationsWithin depth stack).run o = .ok (found, p) → ∀ candidate ∈ found,
        (∃ id ∈ stack, ∃ rule, g.Owns rule id ∧ g.OwnsByCalls rule candidate) ∧
        ∀ caller, g.Owns caller candidate →
          ∃ id ∈ stack, ∃ rule, g.Owns rule id ∧ ReflTransGen g.Calls rule caller := by
  have hg := Grammar.forest_of_build h
  constructor
  · intro rule id howns depth o found p hrun candidate hmem
    have hclosed := hg.closed_ownsByCalls (· = rule)
    have hstart : ∀ other ∈ [id], ∃ start, start = rule ∧ g.OwnsByCalls start other :=
      fun other ho => ⟨rule, rfl, rule, .refl, List.mem_singleton.mp ho ▸ howns⟩
    obtain ⟨_, rfl, hcalls⟩ := ((Finds.of_run depth).1 hrun).of_closed hg hclosed hstart candidate hmem
    exact hcalls
  · intro stack hstack depth o found p hrun candidate hmem
    have hclosed := hg.closed_ownsByCalls fun rule => ∃ id ∈ stack, g.Owns rule id
    have hstart : ∀ id ∈ stack, ∃ rule, (∃ id ∈ stack, g.Owns rule id) ∧ g.OwnsByCalls rule id := by
      intro id hid
      obtain ⟨rule, body, hb, he⟩ := hstack id hid
      have howns : g.Owns rule id := ⟨body, hb, he⟩
      exact ⟨rule, ⟨id, hid, howns⟩, rule, .refl, howns⟩
    obtain ⟨rule, ⟨id, hid, howns⟩, called, hcalls, hcandidate⟩ :=
      ((Finds.of_run depth).2 hrun).of_closed hg hclosed hstart candidate hmem
    refine ⟨⟨id, hid, rule, howns, called, hcalls, hcandidate⟩, fun caller hcaller => ?_⟩
    exact ⟨id, hid, rule, howns, hcaller.unique hg hcandidate ▸ hcalls⟩

/-- The rules `C: 'c'`, `B: ({T} C?) 'b'?`, `A: 'a' B` and `S: A 'z'`. -/
def layered : Grammar where
  name := "G"
  elements := #[⟨.keyword "c", .once, none⟩, ⟨.action "T" none, .once, some ⟨3⟩⟩,
    ⟨.ruleCall "C" (some ⟨0⟩) [], .optional, some ⟨3⟩⟩, ⟨.group [⟨1⟩, ⟨2⟩], .once, some ⟨5⟩⟩,
    ⟨.keyword "b", .optional, some ⟨5⟩⟩, ⟨.group [⟨3⟩, ⟨4⟩], .once, none⟩,
    ⟨.keyword "a", .once, some ⟨8⟩⟩, ⟨.ruleCall "B" (some ⟨1⟩) [], .once, some ⟨8⟩⟩,
    ⟨.group [⟨6⟩, ⟨7⟩], .once, none⟩, ⟨.ruleCall "A" (some ⟨2⟩) [], .once, some ⟨11⟩⟩,
    ⟨.keyword "z", .once, some ⟨11⟩⟩, ⟨.group [⟨9⟩, ⟨10⟩], .once, none⟩]
  rules := #[.parser { name := "C", body := some ⟨0⟩ }, .parser { name := "B", body := some ⟨5⟩ },
    .parser { name := "A", body := some ⟨8⟩ }, .parser { name := "S", body := some ⟨11⟩ }]

namespace Layered

theorem build : Grammar.build "G" [.add (.keyword "c"),
    .declare (.parser { name := "C", body := some ⟨0⟩ }), .add (.action "T" none),
    .add (.ruleCall "C" none []), .setCardinality ⟨2⟩ .optional, .add (.group [⟨1⟩, ⟨2⟩]),
    .add (.keyword "b"), .setCardinality ⟨4⟩ .optional, .add (.group [⟨3⟩, ⟨4⟩]),
    .declare (.parser { name := "B", body := some ⟨5⟩ }), .add (.keyword "a"),
    .add (.ruleCall "B" none []), .add (.group [⟨6⟩, ⟨7⟩]),
    .declare (.parser { name := "A", body := some ⟨8⟩ }), .add (.ruleCall "A" none []),
    .add (.keyword "z"), .add (.group [⟨9⟩, ⟨10⟩]),
    .declare (.parser { name := "S", body := some ⟨11⟩ })] = .ok layered := by
  decide +kernel

theorem owns_a {id : ElementId} (h : layered.Holds ⟨8⟩ id) : layered.Owns ⟨2⟩ id :=
  .inner (.of_body ⟨_, rfl, rfl⟩) h

theorem not_calls_s (rule : RuleId) : ¬ layered.Calls rule ⟨3⟩ := by
  intro h
  obtain ⟨id, parser, -, hcallee⟩ := h
  obtain ⟨e, _, _, he, hk, -⟩ := Grammar.callee_eq_some hcallee
  have hmem := Array.mem_of_getElem? he
  simp only [layered, List.mem_toArray, List.mem_cons, List.not_mem_nil, or_false] at hmem
  rcases hmem with rfl | rfl | rfl | rfl | rfl | rfl | rfl | rfl | rfl | rfl | rfl | rfl <;> cases hk

end Layered

/-- The search from the call of `B` looks ahead from the action in `B`, and what it finds is part of
`B` and `C`. After `'a'` there is the same, and nothing of `S`, although `S` goes on with `'z'` after
its call of `A`. -/
theorem candidates_of_callees_layered : ∃ p q,
    (layered.openingsWithin 9 ⟨7⟩).run ∅ = .ok ([⟨0⟩, ⟨4⟩], p) ∧
      (∀ candidate ∈ [⟨0⟩, ⟨4⟩], layered.OwnsByCalls ⟨2⟩ candidate) ∧
      (layered.continuationsWithin 9 [⟨6⟩]).run ∅ = .ok ([⟨0⟩, ⟨4⟩], q) ∧
      ∀ candidate ∈ [⟨0⟩, ⟨4⟩], ¬ layered.Owns ⟨3⟩ candidate := by
  let p := ((∅ : Context).insert ⟨0⟩ .optional)
  have hrun : (layered.openingsWithin 9 ⟨7⟩).run ∅ = .ok ([⟨0⟩, ⟨4⟩], p) := by decide +kernel
  have hrun' : (layered.continuationsWithin 9 [⟨6⟩]).run ∅ = .ok ([⟨0⟩, ⟨4⟩], p) := by decide +kernel
  have howns : layered.Owns ⟨2⟩ ⟨6⟩ := Layered.owns_a ⟨_, rfl, by decide⟩
  have howns' : layered.Owns ⟨2⟩ ⟨7⟩ := Layered.owns_a ⟨_, rfl, by decide⟩
  obtain ⟨hopenings, hcontinuations⟩ := candidates_of_callees Layered.build
  refine ⟨p, p, hrun, hopenings _ _ howns' _ _ _ _ hrun, hrun', fun candidate hmem hs => ?_⟩
  have hstack : ∀ id ∈ [(⟨6⟩ : ElementId)], layered.InRule id :=
    fun id hid => List.mem_singleton.mp hid ▸ howns.inRule
  obtain ⟨-, hcallers⟩ := hcontinuations _ hstack _ _ _ _ hrun' candidate hmem
  obtain ⟨id, hid, rule, hrule, hreach⟩ := hcallers ⟨3⟩ hs
  obtain rfl := List.mem_singleton.mp hid
  obtain rfl := hrule.unique (Grammar.forest_of_build Layered.build) howns
  rcases ReflTransGen.cases_tail hreach with heq | ⟨caller, -, hcall⟩
  · cases heq
  · exact Layered.not_calls_s caller hcall

end GrammarLookahead
