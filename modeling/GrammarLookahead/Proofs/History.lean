import GrammarLookahead.Proofs.Arena
import Mathlib.Data.List.Induction

namespace GrammarLookahead

/-- What commands do, one thing at a time. -/
inductive Event
  /-- An element is made. -/
  | make (id : ElementId)
  /-- An element takes in another one as its child. -/
  | enclose (parent child : ElementId)
  /-- A rule of the name takes an element as its body. -/
  | claim (rule : String) (body : ElementId)
  /-- A rule takes the name. -/
  | name (rule : String)
  /-- A cardinality is written at an element. -/
  | write (id : ElementId)
deriving DecidableEq

namespace Command

/-- What the command does, in order, when `made` elements have been made before. A rule takes its body
before its name. -/
def events (made : Nat) : Command → List Event
  | .add kind => .make ⟨made⟩ :: kind.children.map (.enclose ⟨made⟩)
  | .setCardinality id _ => [.write id]
  | .declare rule => (rule.body?.map (.claim rule.name)).toList ++ [.name rule.name]

/-- What the commands do, in order, when `made` elements have been made before. -/
def historyFrom : Nat → List Command → List Event
  | _, [] => []
  | made, command :: rest => command.events made ++ historyFrom (made + (kinds [command]).length) rest

/-- What the commands do, in order. -/
def history (commands : List Command) : List Event :=
  historyFrom 0 commands

theorem historyFrom_append (made : Nat) (first second : List Command) :
    historyFrom made (first ++ second) =
      historyFrom made first ++ historyFrom (made + (kinds first).length) second := by
  induction first generalizing made with
  | nil => simp [historyFrom, kinds]
  | cons command first ih =>
    have hkinds : (kinds (command :: first)).length = (kinds [command]).length + (kinds first).length :=
      length_kinds_append [command] first
    rw [List.cons_append, historyFrom, ih, historyFrom, List.append_assoc, hkinds, Nat.add_assoc]

theorem history_append (first second : List Command) :
    history (first ++ second) = history first ++ historyFrom (kinds first).length second := by
  rw [history, historyFrom_append, Nat.zero_add, history]

theorem history_concat (commands : List Command) (command : Command) :
    history (commands ++ [command]) = history commands ++ command.events (kinds commands).length := by
  rw [history_append, historyFrom, historyFrom, List.append_nil]

theorem claim_mem_events {rule : Rule} {made : Nat} {name : String} {body : ElementId} :
    .claim name body ∈ (Command.declare rule).events made ↔
      rule.body? = some body ∧ rule.name = name := by
  cases h : rule.body? with
  | none => simp [events, h]
  | some other => simp [events, h, eq_comm, and_comm]

theorem name_mem_events {rule : Rule} {made : Nat} {name : String} :
    .name name ∈ (Command.declare rule).events made ↔ rule.name = name := by
  cases h : rule.body? with
  | none => simp [events, h, eq_comm]
  | some body => simp [events, h, eq_comm]

theorem make_mem_events {command : Command} {made : Nat} {id : ElementId} :
    .make id ∈ command.events made ↔ made ≤ id.index ∧ id.index < made + (kinds [command]).length := by
  cases command with
  | add kind =>
    have hid : id = ⟨made⟩ ↔ id.index = made := ElementId.ext_iff
    have hkinds : (kinds [.add kind]).length = 1 := rfl
    have hmem : .make id ∈ (Command.add kind).events made ↔ id = ⟨made⟩ := by simp [events]
    rw [hmem, hid, hkinds]
    omega
  | setCardinality other c =>
    have hkinds : (kinds [.setCardinality other c]).length = 0 := rfl
    have hmem : .make id ∉ (Command.setCardinality other c).events made := by simp [events]
    rw [hkinds]
    exact iff_of_false hmem (by omega)
  | declare rule =>
    have hkinds : (kinds [.declare rule]).length = 0 := rfl
    have hmem : .make id ∉ (Command.declare rule).events made := by simp [events]
    rw [hkinds]
    exact iff_of_false hmem (by omega)

theorem make_mem_history {commands : List Command} {id : ElementId} :
    .make id ∈ history commands ↔ id.index < (kinds commands).length := by
  induction commands using List.reverseRecOn with
  | nil => simp [history, historyFrom, kinds]
  | append_singleton commands command ih =>
    rw [history_concat, List.mem_append, ih, make_mem_events, length_kinds_append]
    omega

theorem events_eq_enclose {command : Command} {made : Nat} {past later : List Event}
    {parent child : ElementId} (h : command.events made = past ++ .enclose parent child :: later) :
    parent = ⟨made⟩ ∧ ∀ id, .make id ∈ past ↔ id = ⟨made⟩ := by
  cases command with
  | add kind =>
    cases past with
    | nil => simp [events] at h
    | cons event past =>
      obtain ⟨rfl, hrest⟩ := List.cons.inj h
      change _ = past ++ .enclose parent child :: later at hrest
      have hmem : ∀ event, event ∈ past ++ .enclose parent child :: later →
          ∃ other ∈ kind.children, .enclose ⟨made⟩ other = event := by
        intro event hevent
        rwa [← hrest, List.mem_map] at hevent
      constructor
      · obtain ⟨other, -, heq⟩ := hmem (.enclose parent child) (by simp)
        cases heq
        rfl
      · intro id
        have hno : .make id ∉ past := by
          intro hmake
          obtain ⟨other, -, heq⟩ := hmem _ (List.mem_append_left _ hmake)
          cases heq
        simp [hno]
  | setCardinality id c =>
    have hmem : .enclose parent child ∈ (Command.setCardinality id c).events made := by simp [h]
    simp [events] at hmem
  | declare rule =>
    have hmem : .enclose parent child ∈ (Command.declare rule).events made := by simp [h]
    simp [events] at hmem

theorem make_mem_of_enclose {commands : List Command} {past later : List Event}
    {parent child id : ElementId}
    (h : history commands = past ++ .enclose parent child :: later) :
    .make id ∈ past ↔ id.index ≤ parent.index := by
  induction commands using List.reverseRecOn generalizing later with
  | nil => simp [history, historyFrom] at h
  | append_singleton commands command ih =>
    rw [history_concat, List.append_eq_append_iff] at h
    rcases h with ⟨between, rfl, hevents⟩ | ⟨between, hpast, hlater⟩
    · obtain ⟨rfl, hmake⟩ := events_eq_enclose hevents
      have hid : id = ⟨(kinds commands).length⟩ ↔ id.index = (kinds commands).length :=
        ElementId.ext_iff
      rw [List.mem_append, make_mem_history, hmake, hid]
      exact Nat.le_iff_lt_or_eq.symm
    · cases between with
      | nil =>
        have hevents : command.events (kinds commands).length = [] ++ .enclose parent child :: later :=
          hlater.symm
        obtain ⟨rfl, hmake⟩ := events_eq_enclose hevents
        exact absurd ((hmake _).mpr rfl) List.not_mem_nil
      | cons event between =>
        obtain ⟨rfl, -⟩ := List.cons.inj hlater
        exact ih hpast

end Command

/-- The event breaks a rule after the past ones, which is reported by the error. -/
inductive Breach (past : List Event) : Event → DraftError → Prop
  /-- A child must have been made, be it as the parent itself, -/
  | unknownChild {parent child} : .make child ∉ past →
      Breach past (.enclose parent child) (.unknownElement child)
  /-- must not have been taken in before, -/
  | containedChild {parent child container} : .enclose container child ∈ past →
      Breach past (.enclose parent child) (.alreadyContained child container)
  /-- and must not have become the body of a rule. -/
  | claimedChild {parent child rule} : .claim rule child ∈ past →
      Breach past (.enclose parent child) (.nestedRuleBody child)
  /-- A body must have been made, -/
  | unknownBody {rule body} : .make body ∉ past → Breach past (.claim rule body) (.unknownElement body)
  /-- must not have been taken in, -/
  | containedBody {rule body container} : .enclose container body ∈ past →
      Breach past (.claim rule body) (.nestedRuleBody body)
  /-- and must not have become the body of another rule. -/
  | claimedBody {rule body owner} : .claim owner body ∈ past →
      Breach past (.claim rule body) (.sharedRuleBody body owner)
  /-- The name must be new. -/
  | takenName {rule} : .name rule ∈ past → Breach past (.name rule) (.duplicateRule rule)
  /-- What a cardinality is written at must have been made. -/
  | unknownTarget {id} : .make id ∉ past → Breach past (.write id) (.unknownElement id)

/-- None of the events breaks a rule after those before it. -/
def Proper (events : List Event) : Prop :=
  ∀ past event later e, events = past ++ event :: later → ¬ Breach past event e

/-- The error reports the first of the events that breaks a rule after those before it. -/
def FirstBreach (events : List Event) (e : DraftError) : Prop :=
  ∃ past event later, events = past ++ event :: later ∧ Proper past ∧ Breach past event e

section

variable {past events : List Event} {event : Event} {e : DraftError}

theorem split_concat {past later : List Event} {other : Event}
    (h : events ++ [event] = past ++ other :: later) :
    (past = events ∧ other = event ∧ later = []) ∨ ∃ later', events = past ++ other :: later' := by
  rcases List.eq_nil_or_concat later with rfl | ⟨later', last, rfl⟩
  · obtain ⟨rfl, hlast⟩ := List.append_inj' h rfl
    exact .inl ⟨rfl, (List.singleton_inj.mp hlast).symm, rfl⟩
  · rw [List.concat_eq_append, ← List.cons_append, ← List.append_assoc] at h
    obtain ⟨heq, -⟩ := List.append_inj' h rfl
    exact .inr ⟨later', heq⟩

theorem Proper.of_append {later : List Event} (h : Proper (past ++ later)) : Proper past := by
  intro before event after e heq
  exact h before event (after ++ later) e (by simp [heq])

theorem proper_nil : Proper [] := by
  intro past event later e h
  simp at h

theorem proper_concat :
    Proper (events ++ [event]) ↔ Proper events ∧ ∀ e, ¬ Breach events event e := by
  constructor
  · intro h
    constructor
    · intro past other later e heq
      exact h past other (later ++ [event]) e (by simp [heq])
    · intro e
      exact h events event [] e rfl
  · intro h past other later e heq
    rcases split_concat heq with ⟨rfl, rfl, -⟩ | ⟨later', heq'⟩
    · exact h.2 e
    · exact h.1 past other later' e heq'

theorem firstBreach_nil : ¬ FirstBreach [] e := by
  intro h
  obtain ⟨past, event, later, heq, -⟩ := h
  simp at heq

theorem firstBreach_concat :
    FirstBreach (events ++ [event]) e ↔ FirstBreach events e ∨ Proper events ∧ Breach events event e := by
  constructor
  · intro h
    obtain ⟨past, other, later, heq, hproper, hbreach⟩ := h
    rcases split_concat heq with ⟨rfl, rfl, -⟩ | ⟨later', heq'⟩
    · exact .inr ⟨hproper, hbreach⟩
    · exact .inl ⟨past, other, later', heq', hproper, hbreach⟩
  · intro h
    rcases h with ⟨past, other, later, heq, hproper, hbreach⟩ | ⟨hproper, hbreach⟩
    · exact ⟨past, other, later ++ [event], by simp [heq], hproper, hbreach⟩
    · exact ⟨events, event, [], rfl, hproper, hbreach⟩

theorem FirstBreach.not_proper (h : FirstBreach events e) : ¬ Proper events := by
  intro hproper
  obtain ⟨past, event, later, heq, -, hbreach⟩ := h
  exact hproper past event later e heq hbreach

/-- What comes after a breach does not change which one is the first. -/
theorem firstBreach_append_iff (h : ¬ Proper past) (later : List Event) :
    FirstBreach (past ++ later) e ↔ FirstBreach past e := by
  induction later using List.reverseRecOn with
  | nil => rw [List.append_nil]
  | append_singleton later event ih =>
    have hnot : ¬ Proper (past ++ later) := fun hproper => h hproper.of_append
    rw [← List.append_assoc, firstBreach_concat, ih]
    simp [hnot]

theorem not_proper_iff : ¬ Proper events ↔ ∃ e, FirstBreach events e := by
  induction events using List.reverseRecOn with
  | nil => simp [proper_nil, firstBreach_nil]
  | append_singleton events event ih =>
    simp only [proper_concat, firstBreach_concat, exists_or, ← ih]
    by_cases hproper : Proper events
    · simp [hproper]
    · simp [hproper]

theorem proper_iff : Proper events ↔ ∀ e, ¬ FirstBreach events e := by
  rw [← not_iff_not, not_proper_iff]
  simp

end

end GrammarLookahead
