import GrammarLookahead.Proofs.Lookahead.Adequacy

namespace GrammarLookahead

variable {g : Grammar} {i : Inquiry} {o p q : Context} {id : ElementId} {l l' : List ElementId}

namespace Context

/-- Every mark of the first context is one of the second. -/
instance : LE Context := ⟨fun o p => ∀ id, o.Marks id → p.Marks id⟩

theorem le_refl (o : Context) : o ≤ o :=
  fun _ h => h

theorem le_trans (h : o ≤ p) (h' : p ≤ q) : o ≤ q :=
  fun id hid => h' id (h id hid)

theorem le_handOn (o : Context) (around : Cardinality) (found : List ElementId) :
    o ≤ o.handOn g around found :=
  fun _ h => marks_handOn.mpr (.inl h)

/-- The contexts that queries on the grammar leave, one after the other, the first of them in the
empty context. -/
inductive Filled (g : Grammar) : Context → Prop
  | empty : Filled g ∅
  | openings {depth id o found p} : Filled g o →
      (g.openingsWithin depth id).run o = .ok (found, p) → Filled g p
  | continuations {depth stack o found p} : Filled g o →
      (g.continuationsWithin depth stack).run o = .ok (found, p) → Filled g p

theorem Filled.faithful (h : o.Filled g) : o.Faithful g := by
  induction h with
  | empty => exact faithful_empty
  | openings _ hrun ih => exact ((Finds.of_run _).1 hrun).faithful ih
  | continuations _ hrun ih => exact ((Finds.of_run _).2 hrun).faithful ih

theorem Filled.inside (h : o.Filled g) : o.Inside g := by
  induction h with
  | empty => exact inside_empty
  | openings _ hrun ih => exact ((Finds.of_run _).1 hrun).inside ih
  | continuations _ hrun ih => exact ((Finds.of_run _).2 hrun).inside ih

theorem Faithful.isOptional_mono (ho : o.Faithful g) (hp : p.Faithful g) (hle : o ≤ p)
    (h : (o.seen g id).isOptional = true) : (p.seen g id).isOptional = true :=
  (hp.isOptional_seen id).mpr (((ho.isOptional_seen id).mp h).imp_right (hle id))

theorem Faithful.isOptional_of_written (ho : o.Faithful g)
    (h : (g.written id).isOptional = true) : (o.seen g id).isOptional = true :=
  (ho.isOptional_seen id).mpr (.inl h)

theorem Skips.mono (h : o.Skips g l) (ho : o.Faithful g) (hp : p.Faithful g) (hle : o ≤ p) :
    p.Skips g l :=
  fun id hid => ho.isOptional_mono hp hle (h id hid)

theorem Skips.append (h : o.Skips g l) (h' : o.Skips g l') : o.Skips g (l ++ l') :=
  fun id hid => (List.mem_append.mp hid).elim (h id) (h' id)

theorem skips_nil : o.Skips g [] :=
  fun _ h => absurd h List.not_mem_nil

end Context

namespace Finds

theorem le (h : Finds g i o l p) : o ≤ p :=
  h.preserves (P := fun p => o ≤ p)
    (fun hle _ => Context.le_trans hle (Context.le_handOn _ _ _)) (Context.le_refl o)

theorem skips_append (h : Finds g i o l' p) (ho : o.Faithful g) (hl : o.Skips g l)
    (hl' : p.Skips g l') : p.Skips g (l ++ l') :=
  (hl.mono ho (h.faithful ho) h.le).append hl'

theorem skips_of_optional (h : Finds g (.openings id) o l p) (ho : o.Faithful g)
    (hid : (g.written id).isOptional = true) : p.Skips g l := by
  cases h with
  | leaf =>
    intro other hother
    obtain rfl := List.mem_singleton.mp hother
    exact ho.isOptional_of_written hid
  | closed => exact Context.skips_nil
  | unwrap _ h =>
    have hp := (h.faithful ho).handOn (g.written id) l
    exact fun other hother =>
      (hp.isOptional_seen other).mpr (.inr (Context.marks_handOn.mpr (.inr ⟨hid, hother⟩)))

theorem sequence_skips {ids : List ElementId} (h : Finds g (.sequence ids) o l p)
    (ho : o.Faithful g) (hids : ∀ id ∈ ids, (g.written id).isOptional = true) : p.Skips g l := by
  induction ids generalizing o l p with
  | nil =>
    cases h
    exact Context.skips_nil
  | cons id rest ih =>
    have hid := hids id List.mem_cons_self
    cases h with
    | sequenceStop h => exact h.skips_of_optional ho hid
    | sequenceStep h _ h' =>
      have hrest := ih h' (h.faithful ho) fun other ho => hids other (List.mem_cons_of_mem _ ho)
      exact h'.skips_append (h.faithful ho) (h.skips_of_optional ho hid) hrest

theorem repetitions_skips {ids : List ElementId} (h : Finds g (.repetitions ids) o l p)
    (ho : o.Faithful g) (hids : ∀ id ∈ ids, g.written id ≠ .oneOrMore) : p.Skips g l := by
  induction ids generalizing o l p with
  | nil =>
    cases h
    exact Context.skips_nil
  | cons id rest ih =>
    have hrest := fun other (ho : other ∈ rest) => hids other (List.mem_cons_of_mem _ ho)
    cases h with
    | repetitionsOnce _ _ h => exact ih h ho hrest
    | repetitionsAgain hrep h h' =>
      rw [ho.isRepeatable_seen] at hrep
      have hid : (g.written id).isOptional = true := by
        have hne := hids id List.mem_cons_self
        cases hw : g.written id <;> simp_all [Cardinality.isRepeatable, Cardinality.isOptional]
      exact h'.skips_append (h.faithful ho) (h.skips_of_optional ho hid)
        (ih h' (h.faithful ho) hrest)

end Finds

namespace Grammar

/-- Between the element and the end of the group around it nothing is mandatory: the members behind
may be skipped, and neither the element nor its member of the group is repeated for being written with
`+`. -/
def EndsGroup (g : Grammar) (id group : ElementId) : Prop :=
  ∃ member before after, g.groupAround id = .ok (member, some group) ∧
    g.Plays group (.sequence (before ++ member :: after)) ∧
    (∀ other ∈ after, (g.written other).isOptional = true) ∧
    g.written id ≠ .oneOrMore ∧ g.written member ≠ .oneOrMore

/-- Between the element and the end of its rule nothing is mandatory. -/
inductive EndsRule (g : Grammar) : ElementId → Prop
  | outermost {id member} : g.groupAround id = .ok (member, none) → g.written id ≠ .oneOrMore →
      g.written member ≠ .oneOrMore → EndsRule g id
  | climb {id group} : g.EndsGroup id group → EndsRule g group → EndsRule g id

theorem EndsGroup.around {group : ElementId} (h : g.EndsGroup id group) :
    ∃ member, g.groupAround id = .ok (member, some group) := by
  obtain ⟨member, _, _, hga, -⟩ := h
  exact ⟨member, hga⟩

theorem EndsGroup.unique {member group group' : ElementId} (h : g.EndsGroup id group')
    (hga : g.groupAround id = .ok (member, some group)) : group' = group := by
  obtain ⟨_, hga'⟩ := h.around
  cases hga.symm.trans hga'
  rfl

theorem EndsRule.climbs (h : g.EndsRule id) {member group : ElementId}
    (hga : g.groupAround id = .ok (member, some group)) :
    g.EndsGroup id group ∧ g.EndsRule group := by
  cases h with
  | outermost hga' => cases hga.symm.trans hga'
  | climb hends h =>
    obtain rfl := hends.unique hga
    exact ⟨hends, h⟩

end Grammar

theorem id_mem_repeated {member : ElementId} : id ∈ repeated id member := by
  unfold repeated
  split_ifs <;> simp

theorem member_mem_repeated {member : ElementId} : member ∈ repeated id member := by
  unfold repeated
  split_ifs with h <;> simp [h]

theorem forall_repeated {P : ElementId → Prop} {member : ElementId} (hid : P id)
    (hmember : P member) : ∀ other ∈ repeated id member, P other := by
  unfold repeated
  split_ifs <;> simp [hid, hmember]

theorem Grammar.EndsGroup.skips (hg : g.Forest) {group : ElementId} (h : g.EndsGroup id group)
    (hf : Finds g (.ahead id) o l p) (ho : o.Faithful g) : p.Skips g l := by
  obtain ⟨member, before, after, hga, hp, hafter, hid, hmember⟩ := h
  cases hf with
  | outermost hga' => cases hga.symm.trans hga'
  | follow hga' haft hagain hfollowing =>
    cases hga.symm.trans hga'
    cases haft.symm.trans (hp.membersAfter hg)
    have hq := hagain.faithful ho
    exact hfollowing.skips_append hq
      (hagain.repetitions_skips ho (forall_repeated hid hmember))
      (hfollowing.sequence_skips hq hafter)

/-- All that lookahead finds on the way from the element to the end of its rule may be skipped. -/
theorem Grammar.EndsRule.skips (hg : g.Forest) (h : g.EndsRule id)
    (hf : Finds g (.continuations [id]) o l p) (ho : o.Faithful g) : p.Skips g l := by
  induction h generalizing o l p with
  | outermost hga hid hmember =>
    cases hf with
    | pop _ hahead hcalls =>
      cases hcalls
      rw [List.append_nil]
      cases hahead with
      | outermost hga' hagain =>
        cases hga.symm.trans hga'
        exact hagain.repetitions_skips ho (forall_repeated hid hmember)
      | follow hga' => cases hga.symm.trans hga'
    | settle hga' | climb hga' | leave hga' => cases hga.symm.trans hga'
  | climb hends _ ih =>
    obtain ⟨_, hga⟩ := hends.around
    cases hf with
    | pop hga' => cases hga.symm.trans hga'
    | settle _ hahead hs => exact absurd (hends.skips hg hahead ho) hs
    | climb hga' hahead hs habove =>
      cases hga.symm.trans hga'
      exact habove.skips_append (hahead.faithful ho) hs (ih habove (hahead.faithful ho))
    | leave hga' hahead hs habove _ hcalls =>
      cases hga.symm.trans hga'
      cases hcalls
      rw [List.append_nil]
      exact habove.skips_append (hahead.faithful ho) hs (ih habove (hahead.faithful ho))

end GrammarLookahead
