import GrammarLookahead.Proofs.Ascent
import GrammarLookahead.Proofs.Lookahead.Expected

namespace GrammarLookahead

variable {g : Grammar} {id around : ElementId} {o p : Context} {calls l : List ElementId}

/-- An element that may be repeated comes next after itself, and after all that it is around if it is
directly inside of a group or of nothing. -/
theorem Grammar.Wraps.ahead (hg : g.Forest) (hw : g.Wraps around id)
    (hend : around = id ∨ ∀ outer, g.Holds outer around → g.IsGroup outer)
    (hrep : (g.written around).isRepeatable = true) {member : ElementId}
    {group? : Option ElementId} (hga : g.groupAround id = .ok (member, group?)) :
    g.Ahead id around := by
  rcases hend with rfl | hend
  · exact .own hrep
  · obtain rfl := (hg.arrives hga).eq_of_wraps hg hw hend
    exact .member hga hrep

/-- On a grammar that has been built, and in every context that queries have left, let an element that
may be repeated be around a position with no group in between. If it is the position itself, or directly
inside of a group or of nothing, then a search that ends has found all leaves that it offers. -/
theorem continuations_again {name : String} {commands : List Command} {g : Grammar}
    (h : Grammar.build name commands = .ok g) {o : Context} (ho : o.Filled g)
    {around id : ElementId} (hw : g.Wraps around id)
    (hend : around = id ∨ ∀ outer, g.Holds outer around → g.IsGroup outer)
    (hrep : (g.written around).isRepeatable = true) {depth : Nat} {calls found : List ElementId}
    {p : Context} (hrun : (g.continuationsWithin depth (id :: calls)).run o = .ok (found, p)) :
    Covers g around found p := by
  have hg := Grammar.forest_of_build h
  have hfinds := (Finds.of_run depth).2 hrun
  obtain ⟨member, group?, hga⟩ := hfinds.exists_around
  have hahead : g.Ahead id around := hw.ahead hg hend hrep hga
  exact hfinds.covers hg ho.faithful (.ahead hahead)

/-- The rule `R: 'k' (a=X | b=Y)* 'e'` and the terminals `X` and `Y`. -/
def renewed : Grammar where
  name := "G"
  elements := #[⟨.keyword "k", .once, some ⟨7⟩⟩, ⟨.ruleCall "X" (some ⟨1⟩) [], .once, some ⟨2⟩⟩,
    ⟨.assignment "a" .assign ⟨1⟩, .once, some ⟨5⟩⟩,
    ⟨.ruleCall "Y" (some ⟨2⟩) [], .once, some ⟨4⟩⟩,
    ⟨.assignment "b" .assign ⟨3⟩, .once, some ⟨5⟩⟩,
    ⟨.alternatives [⟨2⟩, ⟨4⟩], .zeroOrMore, some ⟨7⟩⟩, ⟨.keyword "e", .once, some ⟨7⟩⟩,
    ⟨.group [⟨0⟩, ⟨5⟩, ⟨6⟩], .once, none⟩]
  rules := #[.parser { name := "R", body := some ⟨7⟩ }, .terminal { name := "X" },
    .terminal { name := "Y" }]

namespace Renewed

theorem build : Grammar.build "G" [.add (.keyword "k"), .add (.ruleCall "X" none []),
    .add (.assignment "a" .assign ⟨1⟩), .add (.ruleCall "Y" none []),
    .add (.assignment "b" .assign ⟨3⟩), .add (.alternatives [⟨2⟩, ⟨4⟩]),
    .setCardinality ⟨5⟩ .zeroOrMore, .add (.keyword "e"), .add (.group [⟨0⟩, ⟨5⟩, ⟨6⟩]),
    .declare (.parser { name := "R", body := some ⟨7⟩ }), .declare (.terminal { name := "X" }),
    .declare (.terminal { name := "Y" })] = .ok renewed := by
  decide +kernel

theorem wraps : renewed.Wraps ⟨5⟩ ⟨1⟩ := by
  have hchoice : renewed.Holds ⟨5⟩ ⟨2⟩ := ⟨_, rfl, by decide⟩
  have hassignment : renewed.Holds ⟨2⟩ ⟨1⟩ := ⟨_, rfl, by decide⟩
  have hnot : ¬ renewed.IsGroup ⟨5⟩ := Grammar.Forest.not_isGroup rfl rfl
  have hnot' : ¬ renewed.IsGroup ⟨2⟩ := Grammar.Forest.not_isGroup rfl rfl
  exact .tail (.single ⟨hchoice, hnot⟩) ⟨hassignment, hnot'⟩

theorem isGroup_of_holds {outer : ElementId} (h : renewed.Holds outer ⟨5⟩) : renewed.IsGroup outer := by
  have hgroup : renewed.Holds ⟨7⟩ ⟨5⟩ := ⟨_, rfl, by decide⟩
  obtain rfl := (Grammar.forest_of_build build).holds_unique h hgroup
  exact ⟨_, rfl, rfl⟩

theorem offers : Relation.ReflTransGen renewed.Offers ⟨5⟩ ⟨3⟩ := by
  have hchoice : renewed.Plays ⟨5⟩ (.choice [⟨2⟩, ⟨4⟩]) := ⟨_, rfl, rfl⟩
  have hassignment : renewed.Plays ⟨4⟩ (.choice [⟨3⟩]) := ⟨_, rfl, rfl⟩
  have hnot : ∀ {id ids}, renewed.Plays id (.choice ids) → ¬ renewed.Plays id .action :=
    fun hp hp' => by cases hp.unique hp'
  have hbranch : renewed.Offers ⟨5⟩ ⟨4⟩ :=
    .within (hnot hchoice) (Grammar.leads_of_choice hchoice (by decide))
  have hterminal : renewed.Offers ⟨4⟩ ⟨3⟩ :=
    .within (hnot hassignment) (Grammar.leads_of_choice hassignment (by decide))
  exact .tail (.single hbranch) hterminal

end Renewed

theorem continuations_again_renewed : ∃ found p,
    (renewed.continuationsWithin 9 [⟨1⟩]).run ∅ = .ok (found, p) ∧ ⟨3⟩ ∈ found := by
  have hrun : (renewed.continuationsWithin 9 [⟨1⟩]).run ∅ = .ok ([⟨1⟩, ⟨3⟩, ⟨6⟩],
      ((∅ : Context).insert ⟨1⟩ .optional).insert ⟨3⟩ .optional) := by decide +kernel
  have hcovers := continuations_again Renewed.build .empty Renewed.wraps
    (.inr fun _ => Renewed.isGroup_of_holds) rfl hrun
  exact ⟨_, _, hrun, hcovers.mem ⟨_, rfl, rfl⟩ Renewed.offers⟩

/-- The rule `R: ('x' | names+=ID+) ';'` and the terminal `ID`. -/
def skimmed : Grammar where
  name := "G"
  elements := #[⟨.keyword "x", .once, some ⟨3⟩⟩, ⟨.ruleCall "ID" (some ⟨1⟩) [], .once, some ⟨2⟩⟩,
    ⟨.assignment "names" .append ⟨1⟩, .oneOrMore, some ⟨3⟩⟩,
    ⟨.alternatives [⟨0⟩, ⟨2⟩], .once, some ⟨5⟩⟩, ⟨.keyword ";", .once, some ⟨5⟩⟩,
    ⟨.group [⟨3⟩, ⟨4⟩], .once, none⟩]
  rules := #[.parser { name := "R", body := some ⟨5⟩ }, .terminal { name := "ID" }]

/-- A repetition between the two ends of the way is missed: after the call of `ID` there is only the
keyword, although the assignment around the call may be repeated and starts with it. After the
assignment itself there are both. -/
theorem skimmed_misses : ∃ commands, Grammar.build "G" commands = .ok skimmed ∧
    skimmed.Wraps ⟨2⟩ ⟨1⟩ ∧ (skimmed.written ⟨2⟩).isRepeatable = true ∧
    skimmed.Leads ⟨2⟩ ⟨1⟩ ∧ skimmed.Plays ⟨1⟩ .leaf ∧
    (skimmed.continuations [⟨1⟩]).fresh = .ok [⟨4⟩] ∧
    (skimmed.continuations [⟨2⟩]).fresh = .ok [⟨1⟩, ⟨4⟩] := by
  have hassignment : skimmed.Plays ⟨2⟩ (.choice [⟨1⟩]) := ⟨_, rfl, rfl⟩
  refine ⟨[.add (.keyword "x"), .add (.ruleCall "ID" none []),
    .add (.assignment "names" .append ⟨1⟩), .setCardinality ⟨2⟩ .oneOrMore,
    .add (.alternatives [⟨0⟩, ⟨2⟩]), .add (.keyword ";"), .add (.group [⟨3⟩, ⟨4⟩]),
    .declare (.parser { name := "R", body := some ⟨5⟩ }), .declare (.terminal { name := "ID" })],
    by decide +kernel, .single ⟨⟨_, rfl, by decide⟩, Grammar.Forest.not_isGroup rfl rfl⟩, rfl,
    Grammar.leads_of_choice hassignment (by decide), ⟨_, rfl, rfl⟩, by decide +kernel,
    by decide +kernel⟩

end GrammarLookahead
