import GrammarLookahead.Proofs.Lookahead.Expected
import GrammarLookahead.Proofs.Lookahead.Lending

namespace GrammarLookahead

open Relation

/-- A step of the grammar from an element that may not be skipped. -/
def Grammar.Insists (g : Grammar) (id found : ElementId) : Prop :=
  (g.written id).isOptional = false ∧ g.Offers id found

/-- The search has found the leaf, and left a mark on it only if it has found it twice. -/
structure Pins (leaf : ElementId) (o : Context) (l : List ElementId) (p : Context) : Prop where
  mem : leaf ∈ l
  twice : p.Marks leaf → o.Marks leaf ∨ 2 ≤ l.count leaf

variable {g : Grammar} {i : Inquiry} {o p q : Context} {id start leaf : ElementId}
  {l l' : List ElementId}

theorem Context.handOn_of_mandatory {around : Cardinality} (h : around.isOptional = false) :
    o.handOn g around l = o := by
  simp [handOn, h]

namespace Pins

theorem of_leaf : Pins leaf o [leaf] o :=
  ⟨List.mem_singleton_self leaf, .inl⟩

theorem count_append (hl : leaf ∈ l) (hl' : leaf ∈ l') : 2 ≤ (l ++ l').count leaf := by
  have hpos := List.count_pos_iff.mpr hl
  have hpos' := List.count_pos_iff.mpr hl'
  rw [List.count_append]
  omega

theorem before (h : Pins leaf o l p) (hf : Finds g i p l' q) : Pins leaf o (l ++ l') q where
  mem := List.mem_append_left l' h.mem
  twice hmark := by
    rcases hf.marks hmark with hmark | hl'
    · refine (h.twice hmark).imp_right fun htwo => ?_
      rw [List.count_append]
      omega
    · exact .inr (count_append h.mem hl')

theorem behind (hf : Finds g i o l p) (h : Pins leaf p l' q) : Pins leaf o (l ++ l') q where
  mem := List.mem_append_right l h.mem
  twice hmark := by
    rcases h.twice hmark with hmark | htwo
    · exact (hf.marks hmark).imp_right fun hl => count_append hl h.mem
    · rw [List.count_append]
      exact .inr (by omega)

end Pins

theorem gathers_pins (hleaf : g.Plays leaf .leaf) :
    Gathers g fun start o l p => ReflTransGen g.Insists start leaf → Pins leaf o l p where
  leaf hp hr := by
    rcases ReflTransGen.cases_head hr with rfl | ⟨_, hs, -⟩
    · exact .of_leaf
    · exact absurd hs.2 (Grammar.not_offers_of_leaf hp)
  closed hp hr := by
    rcases ReflTransGen.cases_head hr with rfl | ⟨_, hs, -⟩
    · cases hp.unique hleaf
    · exact absurd hs.2 (Grammar.not_offers_of_closed hp)
  unwrap hu _ h hr := by
    rcases ReflTransGen.cases_head hr with rfl | ⟨next, hs, hr'⟩
    · exact absurd hleaf hu.not_leaf
    · rw [Context.handOn_of_mandatory hs.1]
      exact h next (hu.expects hs.2) hr'
  before h _ hf hr := (h hr).before hf
  behind hf h hr := .behind hf (h hr)

/-- A leaf that is come to through mandatory elements only has no mark when it is found once: a mark
is handed on by a fragment that may be skipped, and none of those lies on the way to it. -/
theorem Finds.pins (hg : g.Forest) (h : Finds g i o l p) (ho : o.Faithful g)
    (hstart : i.Expects g start) (hr : ReflTransGen g.Insists start leaf)
    (hleaf : g.Plays leaf .leaf) : Pins leaf o l p :=
  h.gathers (gathers_pins hleaf) hg ho hstart hr

theorem Pins.not_skips (h : Pins leaf ∅ l p) (hp : p.Faithful g)
    (hmand : (g.written leaf).isOptional = false) (honce : l.count leaf ≤ 1) : ¬ p.Skips g l := by
  intro hs
  rcases (hp.isOptional_seen leaf).mp (hs leaf h.mem) with hopt | hmark
  · simp [hmand] at hopt
  · rcases h.twice hmark with hmark | htwo
    · exact Context.not_marks_empty leaf hmark
    · omega

/-- On a grammar that has been built, let the first mandatory member behind a position lead through
mandatory elements to a mandatory leaf, and let the search for what comes next offer that leaf just
once. Then the calls that the position is in make no difference to the answer. A leaf that is offered
twice is shut out: a way to it through something that may be skipped marks it for the whole search,
and it no longer holds back the callers, not even right behind the position. -/
theorem continuations_of_insists {name : String} {commands : List Command} {g : Grammar}
    (h : Grammar.build name commands = .ok g) {id member group next leaf : ElementId}
    {before between after : List ElementId}
    (hga : g.groupAround id = .ok (member, some group))
    (hplays : g.Plays group (.sequence (before ++ member :: (between ++ next :: after))))
    (hbetween : ∀ other ∈ between, (g.written other).isOptional = true)
    (hr : ReflTransGen g.Insists next leaf) (hleaf : g.Plays leaf .leaf)
    (hmand : (g.written leaf).isOptional = false) {depth : Nat} {l : List ElementId} {p : Context}
    (hrun : (g.continuationsWithin depth [id]).run ∅ = .ok (l, p)) (honce : l.count leaf = 1)
    (calls : List ElementId) :
    (∃ depth, (g.continuationsWithin depth (id :: calls)).run ∅ = .ok (l, p)) ∧
      ∀ depth answer, (g.continuationsWithin depth (id :: calls)).run ∅ = .ok answer →
        answer = (l, p) := by
  have hg := Grammar.forest_of_build h
  have hnext : g.Ahead id next := .following hga hplays hbetween
  have hstays : ∀ {l' p'}, Finds g (.ahead id) ∅ l' p' → l'.count leaf ≤ l.count leaf →
      ¬ p'.Skips g l' := fun hahead hle =>
    (hahead.pins hg Context.faithful_empty hnext hr hleaf).not_skips
      (hahead.faithful Context.faithful_empty) hmand (by omega)
  have hfinds : Finds g (.continuations (id :: calls)) ∅ l p := by
    cases (Finds.of_run depth).2 hrun with
    | pop hga' => cases hga.symm.trans hga'
    | settle _ hahead hs => exact .settle hga hahead hs
    | climb _ hahead hs | leave _ hahead hs =>
      refine absurd hs (hstays hahead ?_)
      simp only [List.count_append]
      omega
  refine ⟨?_, fun depth' answer hrun' => ?_⟩
  · obtain ⟨bound, hbound⟩ := hfinds.run
    exact ⟨bound, hbound bound le_rfl⟩
  · obtain ⟨l', p'⟩ := answer
    obtain ⟨rfl, rfl⟩ := hfinds.unique ((Finds.of_run depth').2 hrun')
    rfl

/-- The rules `U: 'e' ('a' & 'b') 'k'`, `N: 'f' ('c'?) 'k'` and `S: U N 'z'`. The members behind
`'e'` and `'f'` are mandatory, but all that is found of them, nothing or `'c'`, may be skipped. -/
def hollow : Grammar where
  name := "G"
  elements := #[⟨.keyword "e", .once, some ⟨5⟩⟩, ⟨.keyword "a", .once, some ⟨3⟩⟩,
    ⟨.keyword "b", .once, some ⟨3⟩⟩, ⟨.unorderedGroup [⟨1⟩, ⟨2⟩], .once, some ⟨5⟩⟩,
    ⟨.keyword "k", .once, some ⟨5⟩⟩, ⟨.group [⟨0⟩, ⟨3⟩, ⟨4⟩], .once, none⟩,
    ⟨.keyword "f", .once, some ⟨10⟩⟩, ⟨.keyword "c", .optional, some ⟨8⟩⟩,
    ⟨.group [⟨7⟩], .once, some ⟨10⟩⟩, ⟨.keyword "k", .once, some ⟨10⟩⟩,
    ⟨.group [⟨6⟩, ⟨8⟩, ⟨9⟩], .once, none⟩, ⟨.ruleCall "U" (some ⟨0⟩) [], .once, some ⟨14⟩⟩,
    ⟨.ruleCall "N" (some ⟨1⟩) [], .once, some ⟨14⟩⟩, ⟨.keyword "z", .once, some ⟨14⟩⟩,
    ⟨.group [⟨11⟩, ⟨12⟩, ⟨13⟩], .once, none⟩]
  rules := #[.parser { name := "U", body := some ⟨5⟩ }, .parser { name := "N", body := some ⟨10⟩ },
    .parser { name := "S", body := some ⟨14⟩ }]

namespace Hollow

theorem build : Grammar.build "G" [.add (.keyword "e"), .add (.keyword "a"), .add (.keyword "b"),
    .add (.unorderedGroup [⟨1⟩, ⟨2⟩]), .add (.keyword "k"), .add (.group [⟨0⟩, ⟨3⟩, ⟨4⟩]),
    .declare (.parser { name := "U", body := some ⟨5⟩ }), .add (.keyword "f"), .add (.keyword "c"),
    .setCardinality ⟨7⟩ .optional, .add (.group [⟨7⟩]), .add (.keyword "k"),
    .add (.group [⟨6⟩, ⟨8⟩, ⟨9⟩]), .declare (.parser { name := "N", body := some ⟨10⟩ }),
    .add (.ruleCall "U" none []), .add (.ruleCall "N" none []), .add (.keyword "z"),
    .add (.group [⟨11⟩, ⟨12⟩, ⟨13⟩]), .declare (.parser { name := "S", body := some ⟨14⟩ })] =
      .ok hollow := by
  decide +kernel

theorem plays_body : hollow.Plays ⟨14⟩ (.sequence ([] ++ ⟨11⟩ :: ([] ++ ⟨12⟩ :: [⟨13⟩]))) :=
  ⟨_, rfl, rfl⟩

theorem run_continuations : (hollow.continuationsWithin 5 [⟨11⟩]).run ∅ = .ok ([⟨6⟩], ∅) := by
  decide +kernel

/-- The call of `N` leads through mandatory elements to the keyword `f`. -/
theorem insists : ReflTransGen hollow.Insists ⟨12⟩ ⟨6⟩ := by
  have hcall : hollow.Plays ⟨12⟩ (.call ⟨1⟩ (some ⟨10⟩)) := ⟨_, rfl, rfl⟩
  have hbody : hollow.Plays ⟨10⟩ (.sequence [⟨6⟩, ⟨8⟩, ⟨9⟩]) := ⟨_, rfl, rfl⟩
  have hnot : ∀ {id role}, hollow.Plays id role → role ≠ .action → ¬ hollow.Plays id .action :=
    fun hp hne hp' => hne (hp.unique hp')
  have h : hollow.Insists ⟨12⟩ ⟨10⟩ :=
    ⟨rfl, .within (hnot hcall (by simp)) (Grammar.leads_of_call hcall rfl)⟩
  have h' : hollow.Insists ⟨10⟩ ⟨6⟩ := ⟨rfl, .within (hnot hbody (by simp))
    (@Grammar.leads_of_sequence _ _ _ [] _ hbody (by simp))⟩
  exact .tail (.single h) h'

end Hollow

theorem continuations_of_insists_hollow :
    (∃ depth, (hollow.continuationsWithin depth [⟨11⟩, ⟨11⟩]).run ∅ = .ok ([⟨6⟩], ∅)) ∧
      ∀ depth answer, (hollow.continuationsWithin depth [⟨11⟩, ⟨11⟩]).run ∅ = .ok answer →
        answer = ([⟨6⟩], ∅) :=
  continuations_of_insists Hollow.build rfl Hollow.plays_body (by simp) Hollow.insists ⟨_, rfl, rfl⟩
    rfl Hollow.run_continuations rfl [⟨11⟩]

theorem hollow_asks_calls : ∃ commands, Grammar.build "G" commands = .ok hollow ∧
    hollow.groupAround ⟨0⟩ = .ok (⟨0⟩, some ⟨5⟩) ∧
    hollow.Plays ⟨5⟩ (.sequence ([⟨0⟩, ⟨3⟩, ⟨4⟩])) ∧
    (∃ e, hollow.element? ⟨4⟩ = some e ∧ e.kind = .keyword "k" ∧ e.cardinality = .once) ∧
    (hollow.continuations [⟨0⟩]).fresh = .ok [] ∧
    (hollow.continuations [⟨0⟩, ⟨11⟩]).fresh = .ok [⟨6⟩] ∧
    hollow.groupAround ⟨6⟩ = .ok (⟨6⟩, some ⟨10⟩) ∧
    hollow.Plays ⟨10⟩ (.sequence ([⟨6⟩, ⟨8⟩, ⟨9⟩])) ∧
    (∃ e, hollow.element? ⟨9⟩ = some e ∧ e.kind = .keyword "k" ∧ e.cardinality = .once) ∧
    (hollow.continuations [⟨6⟩]).fresh = .ok [⟨7⟩] ∧
    (hollow.continuations [⟨6⟩, ⟨12⟩]).fresh = .ok [⟨7⟩, ⟨13⟩] :=
  ⟨_, Hollow.build, rfl, ⟨_, rfl, rfl⟩, ⟨_, rfl, rfl, rfl⟩, by decide +kernel, by decide +kernel, rfl,
    ⟨_, rfl, rfl⟩, ⟨_, rfl, rfl, rfl⟩, by decide +kernel, by decide +kernel⟩

/-- The rules `R: 'a' ({T})? 'k'` and `S: R 'z'`. The action leads on to `'k'`, and what is found
through `({T})?` may be skipped. -/
def bypassed : Grammar where
  name := "G"
  elements := #[⟨.keyword "a", .once, some ⟨4⟩⟩, ⟨.action "T" none, .once, some ⟨2⟩⟩,
    ⟨.group [⟨1⟩], .optional, some ⟨4⟩⟩, ⟨.keyword "k", .once, some ⟨4⟩⟩,
    ⟨.group [⟨0⟩, ⟨2⟩, ⟨3⟩], .once, none⟩, ⟨.ruleCall "R" (some ⟨0⟩) [], .once, some ⟨7⟩⟩,
    ⟨.keyword "z", .once, some ⟨7⟩⟩, ⟨.group [⟨5⟩, ⟨6⟩], .once, none⟩]
  rules := #[.parser { name := "R", body := some ⟨4⟩ }, .parser { name := "S", body := some ⟨7⟩ }]

theorem build_bypassed : Grammar.build "G" [.add (.keyword "a"), .add (.action "T" none),
    .add (.group [⟨1⟩]), .setCardinality ⟨2⟩ .optional, .add (.keyword "k"),
    .add (.group [⟨0⟩, ⟨2⟩, ⟨3⟩]), .declare (.parser { name := "R", body := some ⟨4⟩ }),
    .add (.ruleCall "R" none []), .add (.keyword "z"), .add (.group [⟨5⟩, ⟨6⟩]),
    .declare (.parser { name := "S", body := some ⟨7⟩ })] = .ok bypassed := by
  decide +kernel

/-- The mandatory keyword right behind the position, with nothing but `({T})?` before it, is marked
on the way through the action, and the call that the position is in is asked. -/
theorem bypassed_asks_calls : ∃ commands, Grammar.build "G" commands = .ok bypassed ∧
    bypassed.groupAround ⟨0⟩ = .ok (⟨0⟩, some ⟨4⟩) ∧
    bypassed.Plays ⟨4⟩ (.sequence [⟨0⟩, ⟨2⟩, ⟨3⟩]) ∧
    (bypassed.written ⟨2⟩).isOptional = true ∧
    (∃ e, bypassed.element? ⟨3⟩ = some e ∧ e.kind = .keyword "k" ∧ e.cardinality = .once) ∧
    (bypassed.continuations [⟨0⟩]).fresh = .ok [⟨3⟩, ⟨3⟩] ∧
    (bypassed.continuations [⟨0⟩, ⟨5⟩]).fresh = .ok [⟨3⟩, ⟨3⟩, ⟨6⟩] :=
  ⟨_, build_bypassed, rfl, ⟨_, rfl, rfl⟩, rfl, ⟨_, rfl, rfl, rfl⟩, by decide +kernel,
    by decide +kernel⟩

end GrammarLookahead
