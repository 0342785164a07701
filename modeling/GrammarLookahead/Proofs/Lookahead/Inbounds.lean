import GrammarLookahead.Proofs.Lookahead.Adequacy

namespace GrammarLookahead

/-- The result has the property, or the bound on the depth was too low. No handle was unknown. -/
def Inbounds {α : Type} (P : α → Prop) : Except Fault α → Prop
  | .ok a => P a
  | .error fault => fault = .endless

namespace Inbounds

variable {α β : Type} {P : α → Prop} {Q : β → Prop} {x : Except Fault α}

theorem bind {f : α → Except Fault β} (h : Inbounds P x) (hf : ∀ a, P a → Inbounds Q (f a)) :
    Inbounds Q (x >>= f) := by
  cases x with
  | ok a => exact hf a h
  | error fault => exact h

theorem eq_endless (h : Inbounds P x) (hx : ∀ a, x ≠ .ok a) : x = .error .endless := by
  cases x with
  | ok a => exact absurd rfl (hx a)
  | error fault => exact congrArg Except.error h

end Inbounds

/-- In every context the query has an answer with the property, or its bound on the depth is too low. -/
def Query.Inbounds {α : Type} (P : α → Prop) (query : Query α) : Prop :=
  ∀ o, GrammarLookahead.Inbounds (fun answer => P answer.1) (query.run o)

namespace Query.Inbounds

variable {α β : Type} {P : α → Prop} {Q : β → Prop} {query : Query α}

theorem of_run {answer : Context → α × Context} (h : ∀ o, query.run o = .ok (answer o)) :
    Query.Inbounds (fun _ => True) query := by
  intro o
  rw [h o]
  trivial

theorem pure {a : α} (h : P a) : Query.Inbounds P (pure a) :=
  fun _ => h

theorem bind {f : α → Query β} (h : Query.Inbounds P query)
    (hf : ∀ a, P a → Query.Inbounds Q (f a)) : Query.Inbounds Q (query >>= f) := by
  intro o
  rw [StateT.run_bind]
  exact (h o).bind fun answer ha => hf answer.1 ha answer.2

theorem lift {x : Except Fault α} (h : GrammarLookahead.Inbounds P x) :
    Query.Inbounds P (liftM x : Query α) := by
  intro o
  cases x with
  | ok a => exact h
  | error fault => exact h

end Query.Inbounds

variable {g : Grammar} {id : ElementId}

/-- All of the elements are elements of the grammar. -/
def Grammar.AllIssued (g : Grammar) (ids : List ElementId) : Prop :=
  ∀ id ∈ ids, g.Issued id

namespace Grammar

theorem AllIssued.append {l l' : List ElementId} (h : g.AllIssued l) (h' : g.AllIssued l') :
    g.AllIssued (l ++ l') :=
  fun id hid => (List.mem_append.mp hid).elim (h id) (h' id)

theorem allIssued_nil : g.AllIssued [] :=
  fun _ h => absurd h List.not_mem_nil

theorem AllIssued.of_cons {l : List ElementId} (h : g.AllIssued (id :: l)) :
    g.Issued id ∧ g.AllIssued l :=
  List.forall_mem_cons.mp h

theorem Forest.groupAroundWithin_inbounds (hg : g.Forest) (h : g.Issued id) (steps : Nat) :
    Inbounds (fun found => g.Issued found.1 ∧ ∀ group ∈ found.2, g.Issued group)
      (g.groupAroundWithin steps id) := by
  induction steps generalizing id with
  | zero => rfl
  | succ steps ih =>
    obtain ⟨e, he⟩ := h
    rw [groupAroundWithin, container_of he, ok_bind]
    cases hc : e.container with
    | none => exact ⟨⟨e, he⟩, by simp⟩
    | some outer =>
      obtain ⟨f, hf⟩ := (hg.holds_iff.mpr ⟨e, he, hc⟩).issued
      simp only [element_eq_ok_iff.mpr hf, ok_bind]
      split_ifs
      · refine ⟨⟨e, he⟩, fun group hgroup => ?_⟩
        obtain rfl := Option.some.inj hgroup
        exact ⟨f, hf⟩
      · exact ih ⟨f, hf⟩

theorem Forest.membersAfter_inbounds (hg : g.Forest) {group : ElementId} (h : g.Issued group)
    (member : ElementId) : Inbounds g.AllIssued (g.membersAfter group member) := by
  obtain ⟨e, he⟩ := h
  rw [membersAfter, element_eq_ok_iff.mpr he, ok_bind]
  cases hk : e.kind with
  | group elements =>
    intro id hid
    have hmem := (List.dropWhile_suffix _).mem (List.mem_of_mem_tail hid)
    exact hg.issued_inner ⟨e, he, by simpa [Element.children, hk, ElementKind.children] using hmem⟩
  | _ => exact allIssued_nil

end Grammar

namespace Query.Inbounds

variable {explore : ElementId → Query (List ElementId)} {ids found : List ElementId}

theorem inheriting {around : Cardinality} {explore : Query (List ElementId)}
    (h : Query.Inbounds g.AllIssued explore) :
    Query.Inbounds g.AllIssued (inheriting g around explore) := by
  refine h.bind fun found hfound => ?_
  have hinherit : Query.Inbounds (fun _ => True) (found.forM (Query.inherit g around)) :=
    .of_run fun _ => run_forM_inherit hfound
  exact hinherit.bind fun _ _ => .pure hfound

theorem isOptional (h : g.Issued id) : Query.Inbounds (fun _ => True) (Query.isOptional g id) :=
  .of_run fun _ => run_isOptional h

theorem isRepeatable (h : g.Issued id) : Query.Inbounds (fun _ => True) (Query.isRepeatable g id) :=
  .of_run fun _ => run_isRepeatable h

theorem appending {further : Query (List ElementId)} (h : g.AllIssued found)
    (hfurther : Query.Inbounds g.AllIssued further) :
    Query.Inbounds g.AllIssued (do return found ++ (← further)) :=
  hfurther.bind fun _ h' => .pure (h.append h')

theorem scanSequence (hex : ∀ id, g.Issued id → Query.Inbounds g.AllIssued (explore id))
    (hids : g.AllIssued ids) : Query.Inbounds g.AllIssued (scanSequence g explore ids) := by
  induction ids with
  | nil => exact .pure Grammar.allIssued_nil
  | cons id rest ih =>
    obtain ⟨hid, hrest⟩ := hids.of_cons
    refine (hex id hid).bind fun found hfound => (isOptional hid).bind fun skippable _ => ?_
    split_ifs
    · exact appending hfound (ih hrest)
    · exact .pure hfound

theorem scanBranches (hex : ∀ id, g.Issued id → Query.Inbounds g.AllIssued (explore id))
    (hids : g.AllIssued ids) : Query.Inbounds g.AllIssued (scanBranches explore ids) := by
  induction ids with
  | nil => exact .pure Grammar.allIssued_nil
  | cons id rest ih =>
    obtain ⟨hid, hrest⟩ := hids.of_cons
    exact (hex id hid).bind fun found hfound => appending hfound (ih hrest)

theorem repetition (hex : ∀ id, g.Issued id → Query.Inbounds g.AllIssued (explore id))
    (hid : g.Issued id) : Query.Inbounds g.AllIssued (repetition g explore id) := by
  refine (isRepeatable hid).bind fun again _ => ?_
  split_ifs
  · exact hex id hid
  · exact .pure Grammar.allIssued_nil

theorem repetitions (hex : ∀ id, g.Issued id → Query.Inbounds g.AllIssued (explore id))
    {member : ElementId} (hid : g.Issued id) (hmember : g.Issued member) :
    Query.Inbounds g.AllIssued (repetitions g explore id member) := by
  refine (repetition hex hid).bind fun own hown => ?_
  split_ifs
  · exact .pure hown
  · exact appending hown (repetition hex hmember)

theorem widen {further : Query (List ElementId)} (h : g.AllIssued found)
    (hfurther : Query.Inbounds g.AllIssued further) :
    Query.Inbounds g.AllIssued (widen g found further) := by
  have hall : Query.Inbounds (fun _ => True) (Query.allOptional g found) :=
    .of_run fun _ => run_allOptional h
  refine hall.bind fun skippable _ => ?_
  split_ifs
  · exact appending h hfurther
  · exact .pure h

end Query.Inbounds

namespace Grammar

/-- Searches within the depth that start with elements of the grammar come across no others. -/
structure StaysInbounds (g : Grammar) (depth : Nat) : Prop where
  openings : ∀ id, g.Issued id → Query.Inbounds g.AllIssued (g.openingsWithin depth id)
  continuations : ∀ stack, g.AllIssued stack →
    Query.Inbounds g.AllIssued (g.continuationsWithin depth stack)

namespace StaysInbounds

variable {depth : Nat}

theorem query (h : g.StaysInbounds depth) (hg : g.Forest) {i : Inquiry} (hu : g.Unwraps id i) :
    Query.Inbounds g.AllIssued (i.query g depth) := by
  cases hu with
  | sequence hp =>
    exact .scanSequence h.openings fun _ hm => hg.issued_inner (hp.holds_sequence hm)
  | choice hp => exact .scanBranches h.openings fun _ hb => hg.issued_inner (hp.holds_choice hb)
  | action hp => exact h.continuations [_] (by simpa [AllIssued] using hp.issued)
  | call hp =>
    refine .scanBranches h.openings fun body hb => ?_
    exact hg.isSome_of_inRule (Forest.inRule_body (hp.isBody_iff.mpr (Option.mem_toList.mp hb)))

theorem openings_step (h : g.StaysInbounds depth) (hg : g.Forest) (hid : g.Issued id) :
    Query.Inbounds g.AllIssued (g.openingsWithin (depth + 1) id) := by
  obtain hp | hp | ⟨i, hu⟩ := hid.unwraps
  · rw [openingsWithin_leaf hp]
    exact .pure (by simpa [AllIssued] using hid)
  · rw [openingsWithin_closed hp]
    exact .pure allIssued_nil
  · rw [openingsWithin_unwrap hu]
    exact (h.query hg hu).inheriting

theorem continuations_step (h : g.StaysInbounds depth) (hg : g.Forest) {calls : List ElementId}
    (hstack : g.AllIssued (id :: calls)) :
    Query.Inbounds g.AllIssued (g.continuationsWithin (depth + 1) (id :: calls)) := by
  obtain ⟨hid, hcalls⟩ := hstack.of_cons
  rw [continuationsWithin]
  refine (Query.Inbounds.lift (hg.groupAroundWithin_inbounds hid _)).bind fun around haround => ?_
  obtain ⟨member, group?⟩ := around
  obtain ⟨hmember, hgroup⟩ := haround
  refine (Query.Inbounds.repetitions h.openings hid hmember).bind fun again hagain => ?_
  cases group? with
  | none => exact .appending hagain (h.continuations calls hcalls)
  | some group =>
    have hgroup := hgroup group rfl
    refine (Query.Inbounds.lift (hg.membersAfter_inbounds hgroup member)).bind fun after hafter => ?_
    refine (Query.Inbounds.scanSequence h.openings hafter).bind fun following hfollowing => ?_
    have hwider := h.continuations [group] (by simpa [AllIssued] using hgroup)
    refine (Query.Inbounds.widen (hagain.append hfollowing) hwider).bind fun found hfound => ?_
    exact .widen hfound (h.continuations calls hcalls)

end StaysInbounds

/-- Lookahead stays in the grammar at every depth. -/
theorem Forest.staysInbounds (hg : g.Forest) (depth : Nat) : g.StaysInbounds depth := by
  induction depth with
  | zero =>
    constructor
    · intro id _ o
      rw [openingsWithin]
      rfl
    · intro stack _ o
      rw [continuationsWithin]
      rfl
  | succ depth ih =>
    refine ⟨fun id hid => ih.openings_step hg hid, fun stack hstack => ?_⟩
    cases stack with
    | nil =>
      rw [continuationsWithin]
      exact .pure allIssued_nil
    | cons id calls => exact ih.continuations_step hg hstack

theorem Forest.openingsWithin_eq_endless (hg : g.Forest) (h : g.Issued id) {o : Context}
    (hnone : ∀ l p, ¬ Finds g (.openings id) o l p) (depth : Nat) :
    (g.openingsWithin depth id).run o = .error .endless :=
  ((hg.staysInbounds depth).openings id h o).eq_endless fun answer hrun =>
    hnone answer.1 answer.2 ((Finds.of_run depth).1 hrun)

end Grammar

end GrammarLookahead
