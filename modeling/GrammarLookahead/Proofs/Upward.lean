import GrammarLookahead.Proofs.Diagnosis

namespace GrammarLookahead

/-- How the ways up end in a grammar, given the commands that built it. -/
structure Grammar.Ascends (g : Grammar) (commands : List Command) : Prop where
  /-- Following the containers ends, in less steps than there are elements, for want of a container or
  at an element that contains itself. -/
  climb : ∀ {id}, g.Issued id → ∃ steps top, steps < g.elements.size ∧ g.Climbs steps id top ∧
    (g.container top = .ok none ∨ g.container top = .ok (some top))
  root_iff : ∀ {id}, g.Issued id →
    ((∃ steps top, steps < g.elements.size ∧ g.Climbs steps id top ∧
      g.container top = .ok none) ↔ ¬ g.Looped id)
  /-- Only an element that was given itself as a child contains itself. -/
  given : ∀ {id}, g.Looped id → ∃ own kind, g.Encloses own id ∧
    (Command.kinds commands)[own.index]? = some kind ∧ own ∈ kind.children
  inRule : ∀ {id}, g.InRule id → ¬ g.Looped id
  /-- The rule of an element is found unless the way up has no end. -/
  owner_ends_iff : ∀ {id}, g.Issued id → ((∃ owner?, g.owner id = .ok owner?) ↔ ¬ g.Looped id)
  outermost_endless : ∀ {id}, g.Looped id →
    ∀ depth, g.outermostWithin depth id = .error .endless
  /-- The group around an element is found also where the way up to it comes before the loop. -/
  groupAround_ends_iff : ∀ {id}, g.Issued id →
    ((∃ found, g.groupAround id = .ok found) ↔ ¬ g.Looped id ∨ g.Grouped id)
  groupAround_endless : ∀ {id}, g.Looped id → ¬ g.Grouped id →
    ∀ depth, g.groupAroundWithin depth id = .error .endless
  check_ends_iff : ∀ options, (∃ diagnostics, g.check options = .ok diagnostics) ↔
    (options.unresolvedCalls = true → ∀ id name, g.CallsUnknown id name → ¬ g.Looped id)

/-- In a grammar that has been built, every way up ends for want of a container, unless it comes to an
element that was given itself as a child; the queries that go up end accordingly. -/
theorem ascends_of_build {name : String} {commands : List Command} {g : Grammar}
    (h : Grammar.build name commands = .ok g) : g.Ascends commands := by
  have hg := Grammar.forest_of_build h
  have hl := Grammar.linked_of_build h
  constructor
  · intro id hid
    obtain ⟨steps, top, hsteps, hclimb, htop⟩ := hg.exists_climb hid
    exact ⟨steps, top, by omega, hclimb, htop⟩
  · exact hg.climbs_root_iff
  · intro id hloop
    obtain ⟨own, hself, he⟩ := hloop
    have harena := arenaOf_of_build h
    obtain ⟨kind, hkind, hmem⟩ := harena.container_self (hg.container_iff.mpr hself)
    exact ⟨own, kind, he, hkind, hmem⟩
  · exact fun hin => hin.not_looped hg
  · exact hg.owner_ends_iff
  · exact hg.outermostWithin_of_looped
  · exact hg.groupAround_ends_iff
  · exact hg.groupAroundWithin_of_looped
  · exact hl.check_ends_iff hg

/-- A call of a rule that there is not, inside a choice that is given itself as a branch. -/
def spinning : List Command :=
  [.add (.ruleCall "B" none []), .add (.alternatives [⟨0⟩, ⟨1⟩])]

def spun : Grammar where
  name := "G"
  elements := #[⟨.ruleCall "B" none [], .once, some ⟨1⟩⟩,
    ⟨.alternatives [⟨0⟩, ⟨1⟩], .once, some ⟨1⟩⟩]
  rules := #[]

theorem build_spinning : Grammar.build "G" spinning = .ok spun := by
  decide +kernel

theorem ascends_spun : Grammar.build "G" spinning = .ok spun ∧ spun.Ascends spinning :=
  ⟨build_spinning, ascends_of_build build_spinning⟩

theorem looped_spun : spun.Looped ⟨0⟩ :=
  ⟨⟨1⟩, ⟨_, rfl, by decide⟩, .single ⟨_, rfl, by decide⟩⟩

theorem not_grouped_spun : ¬ spun.Grouped ⟨0⟩ := by
  intro h
  obtain ⟨group, ⟨e, he, hk⟩, -⟩ := h
  have hmem := Array.mem_of_getElem? he
  simp only [spun, List.mem_toArray, List.mem_cons, List.not_mem_nil, or_false] at hmem
  rcases hmem with rfl | rfl <;> cases hk

/-- From the call no way up ends for want of a container, whatever the number of steps; neither the
rule of the call nor the group around it is found, and the check does not end. -/
theorem spun_endless : Grammar.build "G" spinning = .ok spun ∧ spun.Issued ⟨0⟩ ∧
    (¬ ∃ steps top, spun.Climbs steps ⟨0⟩ top ∧ spun.container top = .ok none) ∧
    (∀ depth, spun.outermostWithin depth ⟨0⟩ = .error .endless) ∧
    (∀ depth, spun.groupAroundWithin depth ⟨0⟩ = .error .endless) ∧
    spun.check {} = .error .endless := by
  have hg := Grammar.forest_of_build build_spinning
  refine ⟨build_spinning, ⟨_, rfl⟩, ?_, hg.outermostWithin_of_looped looped_spun,
    hg.groupAroundWithin_of_looped looped_spun not_grouped_spun, by decide +kernel⟩
  intro hroot
  obtain ⟨steps, top, hclimb, htop⟩ := hroot
  exact hg.not_looped_of_climbs hclimb htop looped_spun

end GrammarLookahead
