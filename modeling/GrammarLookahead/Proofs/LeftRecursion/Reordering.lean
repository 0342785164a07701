import GrammarLookahead.Proofs.LeftRecursion.Exact
import GrammarLookahead.Proofs.LeftRecursion.Recurrence
import GrammarLookahead.Proofs.Lookahead.Termination
import GrammarLookahead.Proofs.Naming

namespace GrammarLookahead

/-- What can be told of a rule by its name: whether it is a parser rule, and then its body. -/
def Rule.outline (r : Rule) : String × Option (Option ElementId) :=
  (r.name, r.asParser?.map ParserRule.body)

/-- The element as it was before the calls got their targets. -/
def Element.unlinked (e : Element) : Element :=
  { e with kind := e.kind.link fun _ => none }

namespace Grammar

/-- The grammars have the same elements, up to the targets of calls, and the same rules in some
order. -/
structure Reordered (g g' : Grammar) : Prop where
  elements : g.elements.map Element.unlinked = g'.elements.map Element.unlinked
  rules : (g.rules.toList.map Rule.outline).Perm (g'.rules.toList.map Rule.outline)

variable {g g' : Grammar}

namespace Reordered

theorem symm (h : g.Reordered g') : g'.Reordered g :=
  ⟨h.elements.symm, h.rules.symm⟩

variable {id found : ElementId} {e : Element}

theorem element?_map (h : g.Reordered g') (id : ElementId) :
    (g'.element? id).map Element.unlinked = (g.element? id).map Element.unlinked := by
  simpa [element?] using congrArg (·[id.index]?) h.elements.symm

theorem exists_element (h : g.Reordered g') (he : g.element? id = some e) :
    ∃ e', g'.element? id = some e' ∧ e'.unlinked = e.unlinked := by
  have hmap := h.element?_map id
  rw [he] at hmap
  exact Option.map_eq_some_iff.mp hmap

theorem element?_eq (h : g.Reordered g') (he : g.element? id = some e)
    (hk : ∀ name target arguments, e.kind ≠ .ruleCall name target arguments) :
    g'.element? id = some e := by
  obtain ⟨⟨kind', cardinality', container'⟩, he', heq⟩ := h.exists_element he
  obtain ⟨kind, cardinality, container⟩ := e
  obtain ⟨hkind, rfl, rfl⟩ := Element.mk.inj heq
  have hsame : kind' = kind := by
    cases kind <;> cases kind' <;> simp_all [ElementKind.link]
  rw [he', hsame]

theorem exists_call (h : g.Reordered g') (he : g.element? id = some e) {name : String}
    {target : Option RuleId} {arguments : List String}
    (hk : e.kind = .ruleCall name target arguments) : ∃ e' target', g'.element? id = some e' ∧
      e'.kind = .ruleCall name target' arguments := by
  obtain ⟨e', he', heq⟩ := h.exists_element he
  have hkind := congrArg Element.kind heq
  simp only [Element.unlinked, hk] at hkind
  cases hk' : e'.kind <;> simp_all [ElementKind.link]

theorem map_element?_eq {α : Type} (h : g.Reordered g') {f : Element → α}
    (hf : ∀ e, f e.unlinked = f e) (id : ElementId) :
    (g'.element? id).map f = (g.element? id).map f := by
  have hmap := congrArg (Option.map f) (h.element?_map id)
  simpa only [Option.map_map, Function.comp_def, hf] using hmap

theorem map_element_eq {α : Type} (h : g.Reordered g') {f : Element → α}
    (hf : ∀ e, f e.unlinked = f e) (id : ElementId) :
    f <$> g'.element id = f <$> g.element id := by
  have hmap := h.map_element?_eq hf id
  cases he : g.element? id <;> cases he' : g'.element? id <;> simp_all [element]

theorem written_eq (h : g.Reordered g') (id : ElementId) : g'.written id = g.written id := by
  rw [written, written, h.map_element?_eq fun _ => rfl]

theorem isGroup_unlinked (e : Element) : e.unlinked.isGroup = e.isGroup := by
  obtain ⟨kind, _, _⟩ := e
  cases kind <;> rfl

theorem groupAroundWithin_eq (h : g.Reordered g') (steps : Nat) (id : ElementId) :
    g'.groupAroundWithin steps id = g.groupAroundWithin steps id := by
  induction steps generalizing id with
  | zero => rfl
  | succ steps ih =>
    have hcontainer : g'.container id = g.container id := h.map_element_eq (fun _ => rfl) id
    rw [groupAroundWithin, groupAroundWithin, hcontainer]
    refine bind_congr fun outer? => ?_
    cases outer? with
    | none => rfl
    | some outer =>
      have hgroup := h.map_element_eq isGroup_unlinked outer
      have hnext := congrArg (fun x : Except Fault Bool => x >>= fun isGroup =>
        if isGroup then pure (id, some outer) else g.groupAroundWithin steps outer) hgroup
      simpa only [bind_map_left, ih] using hnext

theorem groupAround_eq (h : g.Reordered g') (id : ElementId) :
    g'.groupAround id = g.groupAround id := by
  have hsize : g'.elements.size = g.elements.size := by
    simpa using congrArg Array.size h.elements.symm
  rw [groupAround, groupAround, hsize, h.groupAroundWithin_eq]

theorem looksAhead (h : g.Reordered g') (hl : g.LooksAhead id found) : g'.LooksAhead id found := by
  induction hl with
  | own hr => exact .own (h.written_eq _ ▸ hr)
  | member hga hr => exact .member ((h.groupAround_eq _).trans hga) (h.written_eq _ ▸ hr)
  | following hga he hk hopt =>
    exact .following ((h.groupAround_eq _).trans hga) (h.element?_eq he (by simp [hk])) hk
      fun other ho => h.written_eq other ▸ hopt other ho
  | climb hga he hk _ ih =>
    exact .climb ((h.groupAround_eq _).trans hga) (h.element?_eq he (by simp [hk])) hk ih

theorem exists_parserRule (h : g.Reordered g') {called : RuleId} {rule : ParserRule}
    (hr : g.parserRule? called = some rule) : ∃ called' rule',
      g'.parserRule? called' = some rule' ∧ rule'.name = rule.name ∧ rule'.body = rule.body := by
  obtain ⟨r, hget, hrule⟩ := Option.bind_eq_some_iff.mp hr
  have hmem : r ∈ g.rules.toList := Array.mem_toList_iff.mpr (Array.mem_of_getElem? hget)
  obtain ⟨r', hr', heq⟩ := List.mem_map.mp (h.rules.mem_iff.mp (List.mem_map_of_mem hmem))
  obtain ⟨i, hi⟩ := Array.mem_iff_getElem?.mp (Array.mem_toList_iff.mp hr')
  obtain ⟨hname, hbody⟩ := Prod.mk.inj heq
  rw [hrule, Option.map_some] at hbody
  obtain ⟨rule', hrule', hbody'⟩ := Option.map_eq_some_iff.mp hbody
  refine ⟨⟨i⟩, rule', Option.bind_eq_some_iff.mpr ⟨r', hi, hrule'⟩, ?_, hbody'⟩
  cases r <;> cases r' <;> simp_all [Rule.asParser?, Rule.name]

theorem exists_callee (h : g.Reordered g') (hg : g.Linked) (hg' : g'.Linked) {called : RuleId}
    {rule : ParserRule} (hc : g.callee id = .ok (some (called, rule))) :
    ∃ called' rule', g'.callee id = .ok (some (called', rule')) ∧ rule'.body = rule.body := by
  obtain ⟨e, name, arguments, he, hk, hr⟩ := callee_eq_some hc
  obtain ⟨called', rule', hr', hname, hbody⟩ := h.exists_parserRule hr
  obtain ⟨e', target', he', hk'⟩ := h.exists_call he hk
  have hnamed : target' = some called' := by
    rw [hg'.target he' hk', ← name_of_ruleNamed? (hg.target he hk).symm hr, ← hname]
    exact hg'.ruleNamed?_of_parserRule? hr'
  refine ⟨called', rule', ?_, hbody⟩
  rw [callee_eq he' hk', hnamed]
  simp [hr']

theorem leads (h : g.Reordered g') (hg : g.Linked) (hg' : g'.Linked) (hl : g.Leads id found) :
    g'.Leads id found := by
  cases hl with
  | branch he hk hf => exact .branch (h.element?_eq he (by simp [hk])) hk hf
  | member he hk hopt =>
    exact .member (h.element?_eq he (by simp [hk])) hk
      fun other ho => h.written_eq other ▸ hopt other ho
  | terminal he hk => exact .terminal (h.element?_eq he (by simp [hk])) hk
  | body hc hb =>
    obtain ⟨_, _, hc', hbody⟩ := h.exists_callee hg hg' hc
    exact .body hc' (hbody.trans hb)
  | lookahead he hk hl =>
    exact .lookahead (h.element?_eq he (by simp [hk])) hk (h.looksAhead hl)

theorem leads_eq (h : g.Reordered g') (hg : g.Linked) (hg' : g'.Linked) : g'.Leads = g.Leads := by
  funext id found
  exact propext ⟨h.symm.leads hg' hg, h.leads hg hg'⟩

theorem reachesCycle_iff (h : g.Reordered g') (hg : g.Linked) (hg' : g'.Linked) :
    g'.ReachesCycle id ↔ g.ReachesCycle id := by
  rw [ReachesCycle, ReachesCycle, h.leads_eq hg hg']

theorem plain (h : g.Reordered g') (hg : g.Linked) (hg' : g'.Linked) (hid : g.Plain id) :
    g'.Plain id := by
  intro found hr hp
  rw [h.leads_eq hg hg'] at hr
  obtain ⟨e, _, _, he, hk⟩ := hp.kind_action
  exact hid found hr ⟨e, h.symm.element?_eq he (by simp [hk]), by rw [hk, roleOf]⟩

theorem plays (h : g.Reordered g') {role : Role} (hp : g.Plays id role) (hleaf : role ≠ .leaf)
    (hcall : ∀ rule body?, role ≠ .call rule body?) : g'.Plays id role := by
  obtain ⟨e, he, rfl⟩ := hp
  cases hk : e.kind with
  | ruleCall name target arguments =>
    rw [hk] at hleaf hcall
    cases target with
    | none => exact absurd rfl hleaf
    | some target =>
      rw [roleOf] at hleaf hcall
      cases ht : g.parserRule? target with
      | none => simp [ht] at hleaf
      | some rule => simp [ht] at hcall
  | _ => exact ⟨e, h.element?_eq he (by simp [hk]), by rw [hk]; rfl⟩

theorem mayLookAhead (h : g.Reordered g') (hl : g.MayLookAhead id found) :
    g'.MayLookAhead id found := by
  induction hl with
  | own hr => exact .own (h.written_eq _ ▸ hr)
  | member hga hr => exact .member ((h.groupAround_eq _).trans hga) (h.written_eq _ ▸ hr)
  | following hga hp hf =>
    exact .following ((h.groupAround_eq _).trans hga) (h.plays hp nofun nofun) hf
  | climb hga _ ih => exact .climb ((h.groupAround_eq _).trans hga) ih

theorem mayLead (h : g.Reordered g') (hg : g.Linked) (hg' : g'.Linked) (hl : g.MayLead id found) :
    g'.MayLead id found := by
  cases hl with
  | sequence hp hf => exact .sequence (h.plays hp nofun nofun) hf
  | choice hp hf => exact .choice (h.plays hp nofun nofun) hf
  | call hp hf =>
    obtain ⟨rule, hc, -, rfl⟩ := hp.callee_of_call
    obtain ⟨_, _, hc', hbody⟩ := h.exists_callee hg hg' hc
    exact .call (plays_call hc') (hbody ▸ hf)
  | action hp hl => exact .action (h.plays hp nofun nofun) (h.mayLookAhead hl)

theorem recurs_iff (h : g.Reordered g') (hg : g.Linked) (hg' : g'.Linked) :
    g'.Recurs id ↔ g.Recurs id := by
  have heq : g'.MayLead = g.MayLead := by
    funext id found
    exact propext ⟨h.symm.mayLead hg' hg, h.mayLead hg hg'⟩
  rw [Recurs, Recurs, heq]

end Reordered

/-- The names are those of the rules from whose body a cycle can be reached, and besides them only
names of rules that lead to an action and recur. -/
structure Reports (g : Grammar) (names : List String) : Prop where
  complete : ∀ {id rule body}, g.parserRule? id = some rule → rule.body = some body →
    g.ReachesCycle body → rule.name ∈ names
  sound : ∀ {n}, n ∈ names → ∃ id rule body, g.parserRule? id = some rule ∧ rule.name = n ∧
    rule.body = some body ∧ (g.Plain body → g.ReachesCycle body) ∧ g.Recurs body

theorem Forest.exists_reports (hg : g.Forest) :
    ∃ found, g.cyclicRules = .ok found ∧ g.Reports (found.map CyclicRule.name) := by
  obtain ⟨found, hfound, hgrounded⟩ := hg.exists_cyclicRules
  refine ⟨found, hfound, ?_, ?_⟩
  · intro id rule body hr hb hcycle
    refine List.mem_map.mpr ⟨⟨id, rule.name⟩, ?_, rfl⟩
    by_contra hnot
    exact (hgrounded (mem_parserRules.mpr hr) hb hnot).not_reachesCycle hcycle
  · intro n hn
    obtain ⟨issue, hi, rfl⟩ := List.mem_map.mp hn
    obtain ⟨rule, body, hrule, hname, hb, hcycle⟩ := hg.reachesCycle_of_cyclicRules hfound hi
    obtain ⟨_, _, hrule', -, hb', hrecurs⟩ := hg.recurs_of_cyclicRules hfound hi
    cases hrule.symm.trans hrule'
    cases hb.symm.trans hb'
    exact ⟨issue.rule, rule, body, hrule, hname.symm, hb, hcycle, hrecurs⟩

/-- A cycle can be reached from the body of the rule with the name, or it leads to no action, or it
does not recur. -/
def Decided (g : Grammar) (n : String) : Prop :=
  ∀ id rule body, (id, rule) ∈ g.parserRules → rule.name = n → rule.body = some body →
    g.ReachesCycle body ∨ g.Plain body ∨ ¬ g.Recurs body

namespace Reordered

variable {n : String} {names names' : List String}

theorem decided (h : g.Reordered g') (hg : g.Linked) (hg' : g'.Linked) (hn : g.Decided n) :
    g'.Decided n := by
  intro id' rule' body hid' hname' hb
  obtain ⟨id, rule, hr, hname, hbody⟩ := h.symm.exists_parserRule (mem_parserRules.mp hid')
  rcases hn id rule body (mem_parserRules.mpr hr) (hname.trans hname') (hbody.trans hb) with
    hcycle | hplain | hnot
  · exact .inl ((h.reachesCycle_iff hg hg').mpr hcycle)
  · exact .inr (.inl (h.plain hg hg' hplain))
  · exact .inr (.inr fun hrecurs => hnot ((h.recurs_iff hg hg').mp hrecurs))

theorem mem_of_mem (h : g.Reordered g') (hg : g.Linked) (hg' : g'.Linked) (hr : g.Reports names)
    (hr' : g'.Reports names') (hn : g.Decided n) (hin : n ∈ names) : n ∈ names' := by
  obtain ⟨id, rule, body, hrule, rfl, hb, hplain, hrecurs⟩ := hr.sound hin
  obtain ⟨id', rule', hrule', hname, hbody⟩ := h.exists_parserRule hrule
  have hcycle : g.ReachesCycle body := by
    rcases hn id rule body (mem_parserRules.mpr hrule) rfl hb with hcycle | hplain' | hnot
    · exact hcycle
    · exact hplain hplain'
    · exact absurd hrecurs hnot
  rw [← hname]
  exact hr'.complete hrule' (hbody.trans hb) ((h.reachesCycle_iff hg hg').mpr hcycle)

end Reordered

end Grammar

/-- On two grammars that have been built from the same elements and the same rules in different
orders, detection has results, and they agree on every name that stands for a rule from whose body a
cycle can be reached, or whose body leads to no action, or whose body does not recur. -/
theorem cyclicRules_reordered {name name' : String} {commands commands' : List Command}
    {g g' : Grammar} (h : Grammar.build name commands = .ok g)
    (h' : Grammar.build name' commands' = .ok g') (hr : g.Reordered g') :
    ∃ found found', g.cyclicRules = .ok found ∧ g'.cyclicRules = .ok found' ∧
      ∀ n, (∀ id rule body, (id, rule) ∈ g.parserRules → rule.name = n → rule.body = some body →
          g.ReachesCycle body ∨ g.Plain body ∨ ¬ g.Recurs body) →
        (n ∈ found.map CyclicRule.name ↔ n ∈ found'.map CyclicRule.name) := by
  have hg := Grammar.linked_of_build h
  have hg' := Grammar.linked_of_build h'
  obtain ⟨found, hfound, hreports⟩ := (Grammar.forest_of_build h).exists_reports
  obtain ⟨found', hfound', hreports'⟩ := (Grammar.forest_of_build h').exists_reports
  refine ⟨found, found', hfound, hfound', fun n hn => ⟨fun hin => ?_, fun hin => ?_⟩⟩
  · exact hr.mem_of_mem hg hg' hreports hreports' hn hin
  · exact hr.symm.mem_of_mem hg' hg hreports' hreports (hr.decided hg hg' hn) hin

/-- The rules of `hidden`, the last one first. -/
def hiddenReversed : Grammar where
  name := "G"
  elements := #[⟨.keyword "x", .optional, some ⟨2⟩⟩, ⟨.ruleCall "B" (some ⟨1⟩) [], .once, some ⟨2⟩⟩,
    ⟨.group [⟨0⟩, ⟨1⟩], .once, none⟩, ⟨.action "T" none, .once, some ⟨5⟩⟩,
    ⟨.ruleCall "A" (some ⟨2⟩) [], .once, some ⟨5⟩⟩, ⟨.group [⟨3⟩, ⟨4⟩], .once, none⟩,
    ⟨.action "T" none, .once, some ⟨8⟩⟩, ⟨.keyword "c", .once, some ⟨8⟩⟩,
    ⟨.group [⟨6⟩, ⟨7⟩], .once, none⟩]
  rules := #[.parser { name := "C", body := some ⟨8⟩ }, .parser { name := "B", body := some ⟨5⟩ },
    .parser { name := "A", body := some ⟨2⟩ }]

theorem build_hiddenReversed : Grammar.build "G" [.add (.keyword "x"),
    .setCardinality ⟨0⟩ .optional, .add (.ruleCall "B" none []), .add (.group [⟨0⟩, ⟨1⟩]),
    .add (.action "T" none), .add (.ruleCall "A" none []), .add (.group [⟨3⟩, ⟨4⟩]),
    .add (.action "T" none), .add (.keyword "c"), .add (.group [⟨6⟩, ⟨7⟩]),
    .declare (.parser { name := "C", body := some ⟨8⟩ }),
    .declare (.parser { name := "B", body := some ⟨5⟩ }),
    .declare (.parser { name := "A", body := some ⟨2⟩ })] = .ok hiddenReversed := by
  decide +kernel

/-- The action of `C` may lead to the keyword, and that to nothing. -/
theorem not_recurs_hidden : ¬ hidden.Recurs ⟨8⟩ := by
  have hkeyword : ∀ found, ¬ hidden.MayLead ⟨7⟩ found := by
    have hplays : hidden.Plays ⟨7⟩ .leaf := ⟨_, rfl, rfl⟩
    intro found hl
    cases hl with
    | sequence hp | choice hp | call hp | action hp => cases hp.unique hplays
  have hbody : ∀ found, ¬ hidden.MayLookAhead ⟨8⟩ found := by
    have hga : hidden.groupAround ⟨8⟩ = .ok (⟨8⟩, none) := rfl
    intro found hl
    cases hl with
    | own hr => cases hr
    | member hga' hr =>
      cases hga.symm.trans hga'
      cases hr
    | following hga' | climb hga' => cases hga.symm.trans hga'
  have haction : ∀ found, hidden.MayLead ⟨6⟩ found → found = ⟨7⟩ := by
    have hplays : hidden.Plays ⟨6⟩ .action := ⟨_, rfl, rfl⟩
    have hga : hidden.groupAround ⟨6⟩ = .ok (⟨6⟩, some ⟨8⟩) := rfl
    have hafter : hidden.membersAfter ⟨8⟩ ⟨6⟩ = .ok [⟨7⟩] := rfl
    intro found hl
    cases hl with
    | sequence hp | choice hp | call hp => cases hp.unique hplays
    | action _ hl =>
      cases hl with
      | own hr => cases hr
      | member hga' hr =>
        cases hga.symm.trans hga'
        cases hr
      | following hga' hp hf =>
        cases hga.symm.trans hga'
        cases hafter.symm.trans (hp.membersAfter (Grammar.forest_of_build build_hidden))
        exact List.mem_singleton.mp hf
      | climb hga' hl =>
        cases hga.symm.trans hga'
        exact absurd hl (hbody found)
  have hacc : Acc (fun found id => hidden.MayLead id found) ⟨8⟩ := by
    have hplays : hidden.Plays ⟨8⟩ (.sequence [⟨6⟩, ⟨7⟩]) := ⟨_, rfl, rfl⟩
    have h7 : Acc (fun found id => hidden.MayLead id found) ⟨7⟩ :=
      .intro _ fun found hl => absurd hl (hkeyword found)
    have h6 : Acc (fun found id => hidden.MayLead id found) ⟨6⟩ :=
      .intro _ fun found hl => haction found hl ▸ h7
    refine .intro _ fun found hl => ?_
    cases hl with
    | sequence hp hf =>
      cases hp.unique hplays
      simp only [List.mem_cons, List.not_mem_nil, or_false] at hf
      rcases hf with rfl | rfl
      · exact h6
      · exact h7
    | choice hp | call hp | action hp => cases hp.unique hplays
  exact fun ⟨_, hr, hc⟩ => not_cycle_of_acc hacc hr hc

/-- Of `A`, which is left recursive, and of `C`, which does not recur, the order makes no
difference. -/
theorem cyclicRules_reordered_hidden : hidden.Reordered hiddenReversed ∧
    ∃ found found', hidden.cyclicRules = .ok found ∧ hiddenReversed.cyclicRules = .ok found' ∧
      found = [⟨⟨0⟩, "A"⟩, ⟨⟨1⟩, "B"⟩] ∧ found' = [⟨⟨1⟩, "B"⟩, ⟨⟨2⟩, "A"⟩] ∧
      ("A" ∈ found.map CyclicRule.name ↔ "A" ∈ found'.map CyclicRule.name) ∧
      ("C" ∈ found.map CyclicRule.name ↔ "C" ∈ found'.map CyclicRule.name) := by
  have hreordered : hidden.Reordered hiddenReversed := ⟨by decide +kernel, by decide⟩
  have hreversed : hiddenReversed.cyclicRules = .ok [⟨⟨1⟩, "B"⟩, ⟨⟨2⟩, "A"⟩] := by decide +kernel
  obtain ⟨found, found', hfound, hfound', hiff⟩ :=
    cyclicRules_reordered build_hidden build_hiddenReversed hreordered
  have hname : ∀ n body, (∀ entry ∈ hidden.parserRules, entry.2.name = n →
      entry.2.body = some body) → hidden.ReachesCycle body ∨ ¬ hidden.Recurs body →
      (n ∈ found.map CyclicRule.name ↔ n ∈ found'.map CyclicRule.name) := by
    intro n body hbody hdecided
    refine hiff n fun id rule body' hid hname hb => ?_
    obtain rfl := Option.some.inj (hb.symm.trans (hbody (id, rule) hid hname))
    exact hdecided.imp_right .inr
  refine ⟨hreordered, found, found', hfound, hfound', ?_, ?_, ?_, ?_⟩
  · exact Except.ok.inj (hfound.symm.trans cyclicRules_hidden)
  · exact Except.ok.inj (hfound'.symm.trans hreversed)
  · exact hname "A" ⟨2⟩ (by decide) (.inl ⟨⟨2⟩, .refl, cycle_hidden⟩)
  · exact hname "C" ⟨8⟩ (by decide) (.inr not_recurs_hidden)

/-- The rules of `overlooked`, the second one first: detection explores `A` before it has a verdict
on `B`. -/
def overlookedReversed : Grammar where
  name := "G"
  elements := #[⟨.keyword "k", .once, none⟩, ⟨.action "T" none, .once, some ⟨3⟩⟩,
    ⟨.ruleCall "B" (some ⟨1⟩) [], .optional, some ⟨3⟩⟩, ⟨.group [⟨1⟩, ⟨2⟩], .once, some ⟨5⟩⟩,
    ⟨.ruleCall "A" (some ⟨0⟩) [], .once, some ⟨5⟩⟩, ⟨.group [⟨3⟩, ⟨4⟩], .once, none⟩]
  rules := #[.parser { name := "A", body := some ⟨5⟩ }, .parser { name := "B", body := some ⟨0⟩ }]

theorem build_overlookedReversed : Grammar.build "G" [.add (.keyword "k"), .add (.action "T" none),
    .add (.ruleCall "B" none []), .setCardinality ⟨2⟩ .optional, .add (.group [⟨1⟩, ⟨2⟩]),
    .add (.ruleCall "A" none []), .add (.group [⟨3⟩, ⟨4⟩]),
    .declare (.parser { name := "A", body := some ⟨5⟩ }),
    .declare (.parser { name := "B", body := some ⟨0⟩ })] = .ok overlookedReversed := by
  decide +kernel

/-- A rule that is reported in one order of the rules and not in the other. -/
theorem overlooked_reported_by_order : ∃ commands commands',
    Grammar.build "G" commands = .ok overlooked ∧
    Grammar.build "G" commands' = .ok overlookedReversed ∧
    overlooked.Reordered overlookedReversed ∧ overlooked.cyclicRules = .ok [] ∧
    overlookedReversed.cyclicRules = .ok [⟨⟨0⟩, "A"⟩] :=
  ⟨_, _, Overlooked.build, build_overlookedReversed, ⟨by decide +kernel, by decide⟩,
    by decide +kernel, by decide +kernel⟩

end GrammarLookahead
